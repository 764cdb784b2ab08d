import SemanticSearch.Decimal
import SemanticSearch.FloatText

namespace SemanticSearch

def micros (x : ℚ) : ℕ := (roundEven (x * 10 ^ 6)).toNat

/-- A number below a million with six digits. -/
def sixPlaces (n : ℕ) : Bytes := List.replicate (6 - (decimal n).length) 48 ++ decimal n

def millionths (n : ℕ) : Bytes := decimal (n / 10 ^ 6) ++ point :: sixPlaces (n % 10 ^ 6)

def fixedText : Binary32 → Bytes
  | .finite neg x => (if neg then text "-" else []) ++ millionths (micros x.1)
  | .infinite neg => (if neg then text "-" else []) ++ text "inf"
  | .nan _ => text "nan"

/-- The number that is printed, as a `float`. -/
def printedScore : Binary32 → Binary32
  | .finite neg x => .ofRat neg (micros x.1 / 10 ^ 6)
  | x => x

theorem isDigit_iff {c : Byte} : isDigit c ↔ 48 ≤ c.toNat ∧ c.toNat ≤ 57 := by
  simp only [isDigit, Bool.and_eq_true, decide_eq_true_eq, UInt8.le_iff_toNat_le]
  exact Iff.rfl

theorem isDigitBelow_ten (c : Byte) : isDigitBelow 10 c = isDigit c := by
  unfold isDigitBelow hexValue
  by_cases hc : isDigit c
  · have hrange := isDigit_iff.mp hc
    have hlt : c.toNat - 48 < 10 := by omega
    simp [hc, hlt]
  · rw [if_neg hc, Bool.eq_false_iff.mpr hc]
    split_ifs with h1 h2
    · simp only [Bool.and_eq_true, decide_eq_true_eq, UInt8.le_iff_toNat_le] at h1
      have hlow : (65 : Byte).toNat = 65 := rfl
      have hge : ¬ c.toNat - 55 < 10 := by omega
      simp [hge]
    · simp only [Bool.and_eq_true, decide_eq_true_eq, UInt8.le_iff_toNat_le] at h2
      have hlow : (97 : Byte).toNat = 97 := rfl
      have hge : ¬ c.toNat - 87 < 10 := by omega
      simp [hge]
    · rfl

theorem digitsBelow_ten {ds : Bytes} (h : ∀ c ∈ ds, isDigit c) :
    digitsBelow 10 ds = digitsValue ds := by
  have hstep : ∀ a : ℕ, ds.foldl (fun n c => n * 10 + (hexValue c).getD 0) a =
      ds.foldl (fun n c => n * 10 + (c.toNat - 48)) a := by
    induction ds with
    | nil => exact fun a => rfl
    | cons c ds ih =>
      intro a
      rw [List.forall_mem_cons] at h
      have hc : (hexValue c).getD 0 = c.toNat - 48 := by
        rw [hexValue, if_pos h.1]
        rfl
      rw [List.foldl_cons, List.foldl_cons, hc, ih h.2]
  exact hstep 0

theorem digitsValue_append (a b : Bytes) :
    digitsValue (a ++ b) = digitsValue a * 10 ^ b.length + digitsValue b := by
  have hstep : ∀ n : ℕ, b.foldl (fun a c => a * 10 + (c.toNat - 48)) n =
      n * 10 ^ b.length + digitsValue b := by
    unfold digitsValue
    induction b with
    | nil => intro n; simp
    | cons c b ih =>
      intro n
      rw [List.foldl_cons, List.foldl_cons, ih, ih (0 * 10 + (c.toNat - 48)), List.length_cons,
        Nat.pow_succ]
      ring
  rw [digitsValue, List.foldl_append, hstep, ← digitsValue]

theorem isDigit_of_mem_sixPlaces {n : ℕ} {c : Byte} (h : c ∈ sixPlaces n) : isDigit c := by
  rcases List.mem_append.mp h with h | h
  · rw [List.eq_of_mem_replicate h]
    decide
  · exact isDigit_of_mem_decimal h

theorem length_sixPlaces {n : ℕ} (h : n < 10 ^ 6) : (sixPlaces n).length = 6 := by
  have hlen : (decimal n).length ≤ 6 := by
    rw [decimal_eq, List.length_map]
    exact (Nat.length_toDigits_le_iff (by decide) (by decide)).mpr h
  rw [sixPlaces, List.length_append, List.length_replicate]
  omega

theorem digitsValue_sixPlaces (n : ℕ) : digitsValue (sixPlaces n) = n := by
  have hzeros : ∀ k : ℕ, digitsValue (List.replicate k 48) = 0 := by
    intro k
    induction k with
    | zero => rfl
    | succ k ih => rw [List.replicate_succ', digitsValue_append, ih]; rfl
  rw [sixPlaces, digitsValue_append, hzeros, digitsValue_decimal, Nat.zero_mul, Nat.zero_add]

variable {n : ℕ}

theorem exists_millionths (n : ℕ) : ∃ c d t, millionths n = c :: d :: t ∧ isDigit c ∧
    (isDigit d ∨ d = point) := by
  have hdigits : ∀ c ∈ decimal (n / 10 ^ 6), isDigit c := fun c hc => isDigit_of_mem_decimal hc
  rw [millionths]
  rcases hd : decimal (n / 10 ^ 6) with _ | ⟨c, _ | ⟨d, t⟩⟩
  · exact absurd hd (decimal_ne_nil _)
  · rw [hd] at hdigits
    exact ⟨c, point, _, rfl, hdigits c List.mem_cons_self, Or.inr rfl⟩
  · rw [hd] at hdigits
    exact ⟨c, d, _, rfl, hdigits c List.mem_cons_self,
      Or.inl (hdigits d (List.mem_cons_of_mem c List.mem_cons_self))⟩

theorem toLower_of_le {c : Byte} (h : c.toNat ≤ 57) : toLower c = c := by
  unfold toLower
  rw [if_neg]
  have hlow : (65 : Byte).toNat = 65 := rfl
  simp only [isUpper, Bool.and_eq_true, decide_eq_true_eq, UInt8.le_iff_toNat_le]
  omega

theorem readMantissa_millionths (n : ℕ) :
    readMantissa 10 (millionths n) = some ((n : ℚ) / 10 ^ 6, []) := by
  have hint : ∀ c ∈ decimal (n / 10 ^ 6), isDigitBelow 10 c := fun c hc => by
    rw [isDigitBelow_ten]
    exact isDigit_of_mem_decimal hc
  have hfrac : ∀ c ∈ sixPlaces (n % 10 ^ 6), isDigitBelow 10 c := fun c hc => by
    rw [isDigitBelow_ten]
    exact isDigit_of_mem_sixPlaces hc
  have hpoint : isDigitBelow 10 point = false := by decide
  have htake : (millionths n).takeWhile (isDigitBelow 10) = decimal (n / 10 ^ 6) := by
    rw [millionths, List.takeWhile_append_of_pos hint, List.takeWhile_cons_of_neg (by simp [hpoint]),
      List.append_nil]
  have hdrop : (millionths n).dropWhile (isDigitBelow 10) = point :: sixPlaces (n % 10 ^ 6) := by
    rw [millionths, List.dropWhile_append_of_pos hint, List.dropWhile_cons_of_neg (by simp [hpoint])]
  have hvalue : digitsBelow 10 (decimal (n / 10 ^ 6) ++ sixPlaces (n % 10 ^ 6)) = n := by
    rw [digitsBelow_ten, digitsValue_append, digitsValue_decimal, digitsValue_sixPlaces,
      length_sixPlaces (Nat.mod_lt _ (by decide)), Nat.div_add_mod']
    intro c hc
    rcases List.mem_append.mp hc with hc | hc
    · exact isDigit_of_mem_decimal hc
    · exact isDigit_of_mem_sixPlaces hc
  have hne : decimal (n / 10 ^ 6) ++ sixPlaces (n % 10 ^ 6) ≠ [] := by
    simp [decimal_ne_nil]
  simp only [readMantissa, htake, hdrop, List.head?_cons, if_true, List.tail_cons,
    List.takeWhile_eq_self_iff.mpr hfrac, List.dropWhile_eq_nil_iff.mpr hfrac, if_neg hne, hvalue,
    length_sixPlaces (Nat.mod_lt n (by decide : 0 < 10 ^ 6))]
  rw [Nat.cast_ofNat]

theorem readNumber_millionths (n : ℕ) : readNumber (millionths n) = some ((n : ℚ) / 10 ^ 6) := by
  obtain ⟨c, d, t, hs, hc, hd⟩ := exists_millionths n
  have hd57 : d.toNat ≤ 57 ∧ d ≠ 120 := by
    rcases hd with hd | rfl
    · have hrange := isDigit_iff.mp hd
      refine ⟨hrange.2, ?_⟩
      rintro rfl
      exact absurd hd (by decide)
    · decide
  have hhex : (text "0x").isPrefixOf ((millionths n).map toLower) = false := by
    have htext : text "0x" = [48, 120] := rfl
    rw [hs, htext, List.map_cons, List.map_cons, toLower_of_le hd57.1]
    simp [List.isPrefixOf, hd57.2.symm]
  simp only [readNumber, hhex, Bool.false_eq_true, if_false, readMantissa_millionths]
  simp [readExponent]

theorem stof_millionths {underflows : ℚ → Bool} (hfin : (Binary32.ofRat false (n / 10 ^ 6)).isFinite)
    (hu : underflows (n / 10 ^ 6) = false) :
    stof underflows (millionths n) = .ok (.ofRat false (n / 10 ^ 6)) := by
  obtain ⟨c, d, t, hs, hc, -⟩ := exists_millionths n
  have hletters : ∀ e : Byte, ∀ word : Bytes, 57 < e.toNat →
      (e :: word).isPrefixOf ((millionths n).map toLower) = false := by
    intro e word he
    have hc57 := (isDigit_iff.mp hc).2
    have hne : e ≠ c := by
      rintro rfl
      omega
    rw [hs, List.map_cons, toLower_of_le hc57]
    simp [List.isPrefixOf, hne]
  have hinf : namesInfinity (millionths n) = false := hletters 105 (text "nf") (by decide)
  have hnan : namesNaN (millionths n) = false := hletters 110 (text "an") (by decide)
  have hnumeral : numeral (millionths n) = (false, millionths n) := by
    rw [hs, numeral_of_digit hc]
  simp only [stof, hnumeral, hinf, hnan, Bool.false_eq_true, if_false, readNumber_millionths, hfin,
    hu, Bool.not_true, Bool.or_self]

theorem micros_le {x : ℚ} {n : ℕ} (h : x ≤ n) : micros x ≤ n * 10 ^ 6 := by
  have hround : roundEven (x * 10 ^ 6) ≤ ((n * 10 ^ 6 : ℕ) : ℤ) := by
    apply roundEven_le
    push_cast
    exact mul_le_mul_of_nonneg_right h (by norm_num)
  rw [micros]
  omega

theorem le_micros {x : ℚ} {n : ℕ} (h : n ≤ x * 10 ^ 6) : n ≤ micros x := by
  have hround : (n : ℤ) ≤ roundEven (x * 10 ^ 6) := le_roundEven (by exact_mod_cast h)
  rw [micros]
  omega

theorem micros_natCast (n : ℕ) : micros n = n * 10 ^ 6 := by
  have hcast : (n : ℚ) * 10 ^ 6 = (((n * 10 ^ 6 : ℕ) : ℤ) : ℚ) := by norm_num
  rw [micros, hcast, roundEven_intCast, Int.toNat_natCast]

theorem isFinite_printed {x : ℚ} (hx : IsMagnitude x) :
    (Binary32.ofRat false (micros x / 10 ^ 6)).isFinite := by
  rcases le_or_gt x (2 ^ 24) with hle | hgt
  · have hmicros : micros x ≤ 2 ^ 24 * 10 ^ 6 := micros_le (by exact_mod_cast hle)
    have hbound : (micros x : ℚ) / 10 ^ 6 ≤ 2 ^ (24 : ℤ) := by
      rw [div_le_iff₀ (by norm_num)]
      exact_mod_cast hmicros
    exact (Binary32.within_ofRat_of_le (by positivity) hbound (by decide) (by decide)).isFinite
  · obtain ⟨m, e, hm, hmin, hmax, hvalue⟩ := hx
    have hpos : 0 ≤ e := by
      by_contra hneg
      have hsmall : (2 : ℚ) ^ e ≤ 2 ^ (0 : ℤ) := zpow_le_zpow_right₀ (by norm_num) (by omega)
      rw [zpow_zero] at hsmall
      have hm' : (m : ℚ) < 2 ^ 24 := by exact_mod_cast hm
      have hle : (m : ℚ) * 2 ^ e ≤ m * 1 := mul_le_mul_of_nonneg_left hsmall (Nat.cast_nonneg m)
      linarith
    obtain ⟨k, rfl⟩ := Int.eq_ofNat_of_zero_le hpos
    have hint : x = ((m * 2 ^ k : ℕ) : ℚ) := by
      rw [hvalue]
      push_cast
      rfl
    have hsame : (micros x : ℚ) / 10 ^ 6 = x := by
      rw [hint, micros_natCast, Nat.cast_mul]
      norm_num
    rw [hsame, Binary32.ofRat_magnitude ⟨x, m, k, hm, hmin, hmax, hvalue⟩]
    rfl

end SemanticSearch
