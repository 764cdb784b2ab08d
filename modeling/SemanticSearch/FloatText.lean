import Mathlib.Data.List.DropRight
import SemanticSearch.Binary32
import SemanticSearch.HttpRequest
import SemanticSearch.Json
import SemanticSearch.PercentCoding

namespace SemanticSearch

def isDigitBelow (b : ℕ) (c : Byte) : Bool := (hexValue c).any (· < b)

def digitsBelow (b : ℕ) (ds : Bytes) : ℕ := ds.foldl (fun n c => n * b + (hexValue c).getD 0) 0

def point : Byte := 46

/-- Digits with a point among them: their value and what follows. -/
def readMantissa (b : ℕ) (s : Bytes) : Option (ℚ × Bytes) :=
  let int := s.takeWhile (isDigitBelow b)
  let rest := s.dropWhile (isDigitBelow b)
  let behind := if rest.head? = some point then rest.tail else []
  let frac := behind.takeWhile (isDigitBelow b)
  if int ++ frac = [] then none
  else some (digitsBelow b (int ++ frac) / b ^ frac.length,
    if rest.head? = some point then behind.dropWhile (isDigitBelow b) else rest)

/-- The exponent behind its letter; zero if there is none. -/
def readExponent (letter : Byte) : Bytes → ℤ
  | [] => 0
  | c :: s =>
    if toLower c = letter then
      let ds := if s.head? = some 43 ∨ s.head? = some 45 then s.tail else s
      let n : ℤ := digitsValue (ds.takeWhile isDigit)
      if s.head? = some 45 then -n else n
    else 0

/-- A number in decimal, or in hexadecimal behind `0x`. -/
def readNumber (s : Bytes) : Option ℚ :=
  -- the exponents are behind `p` (112) and `e` (101)
  let hex := if (text "0x").isPrefixOf (s.map toLower) then readMantissa 16 (s.drop 2) else none
  match hex with
  | some (m, rest) => some (m * 2 ^ readExponent 112 rest)
  | none => (readMantissa 10 s).map fun p => p.1 * 10 ^ readExponent 101 p.2

def namesInfinity (word : Bytes) : Bool := (text "inf").isPrefixOf (word.map toLower)

def namesNaN (word : Bytes) : Bool := (text "nan").isPrefixOf (word.map toLower)

/-- `std::stof`. Which numbers are too small for it is up to the library. -/
def stof (underflows : ℚ → Bool) (s : Bytes) : Except Exn Binary32 :=
  let (neg, word) := numeral s
  if namesInfinity word then .ok (.infinite neg)
  else if namesNaN word then .ok (.nan neg)
  else match readNumber word with
    | none => .error .invalid_argument
    | some x =>
      if !(Binary32.ofRat neg x).isFinite || underflows x then .error .out_of_range
      else .ok (.ofRat neg x)

/-- Whether a text names no finite number, behind white space and a sign. -/
def namesNonFinite (s : Bytes) : Bool := namesInfinity (numeral s).2 || namesNaN (numeral s).2

theorem isFinite_of_stof {underflows : ℚ → Bool} {s : Bytes} {x : Binary32}
    (h : stof underflows s = .ok x) : x.isFinite = !namesNonFinite s := by
  unfold stof namesNonFinite at *
  simp only at h ⊢
  rcases hinf : namesInfinity (numeral s).2 with _ | _
  · rcases hnan : namesNaN (numeral s).2 with _ | _
    · simp only [hinf, hnan, Bool.false_eq_true, if_false] at h
      split at h
      · cases h
      · split_ifs at h with hfin
        cases h
        simp only [Bool.or_eq_true, Bool.not_eq_true', not_or, Bool.not_eq_false] at hfin
        exact hfin.1
    · simp only [hinf, hnan, Bool.false_eq_true, if_false, if_true] at h
      cases h
      rfl
  · simp only [hinf, if_true] at h
    cases h
    rfl

def signText (neg : Bool) : List Char := if neg then ['-'] else []

/-- `out << n` for an `int`. -/
def intText (n : ℤ) : List Char := signText (n < 0) ++ Nat.toDigits 10 n.natAbs

/-- The digits of a fraction without the zeros at its end, behind a point if any are left. -/
def fractionText (ds : List Char) : List Char :=
  if ds.rdropWhile (· = '0') = [] then [] else '.' :: ds.rdropWhile (· = '0')

/-- An exponent with at least two digits. -/
def exponentText (e : ℤ) : List Char :=
  'e' :: (if e < 0 then '-' else '+') ::
    (if e.natAbs < 10 then '0' :: Nat.toDigits 10 e.natAbs else Nat.toDigits 10 e.natAbs)

/-- The six leading digits of a positive number, and the exponent of the first. -/
def sixDigits (x : ℚ) : ℕ × ℤ :=
  let p := Int.log 10 x
  let n := (roundEven (x / 10 ^ (p - 5))).toNat
  if n = 10 ^ 6 then (10 ^ 5, p + 1) else (n, p)

/-- The format `%g` of `printf`. -/
def magnitudeText (x : ℚ) : List Char :=
  if x = 0 then ['0'] else
    let (n, p) := sixDigits x
    let ds := Nat.toDigits 10 n
    if p < -4 ∨ 6 ≤ p then ds.take 1 ++ fractionText (ds.drop 1) ++ exponentText p
    else if p < 0 then ['0'] ++ fractionText (List.replicate (-p - 1).toNat '0' ++ ds)
    else ds.take (p.toNat + 1) ++ fractionText (ds.drop (p.toNat + 1))

/-- `out << x` for a `float`. -/
def floatText : Binary32 → List Char
  | .finite neg x => signText neg ++ magnitudeText x.1
  | .infinite neg => signText neg ++ ['i', 'n', 'f']
  | .nan neg => signText neg ++ ['n', 'a', 'n']

open Json

variable {n : ℕ} {x : ℚ}

theorem isDigits_toDigits (n : ℕ) : IsDigits (Nat.toDigits 10 n) :=
  ⟨Nat.toDigits_ne_nil, fun _ => Nat.isDigit_of_mem_toDigits (by decide) (by decide)⟩

theorem head?_toDigits (h : 0 < n) : (Nat.toDigits 10 n).head? ≠ some '0' := by
  induction n using Nat.strong_induction_on with
  | _ n ih =>
    rw [Nat.toDigits_eq_if (by decide)]
    split_ifs with hn
    · have hall : ∀ k < 10, 0 < k → Nat.digitChar k ≠ '0' := by decide
      simpa using hall n hn h
    · have htail := ih (n / 10) (by omega) (by omega)
      rwa [List.head?_append_of_ne_nil _ Nat.toDigits_ne_nil]

theorem isInt_toDigits (n : ℕ) : IsInt (Nat.toDigits 10 n) := by
  refine ⟨isDigits_toDigits n, fun h => ?_⟩
  rcases Nat.eq_zero_or_pos n with rfl | hn
  · rfl
  · exact absurd h (head?_toDigits hn)

theorem isInt_take_toDigits (hn : 0 < n) (k : ℕ) : IsInt ((Nat.toDigits 10 n).take (k + 1)) := by
  have hhead : ((Nat.toDigits 10 n).take (k + 1)).head? = (Nat.toDigits 10 n).head? := by
    rw [List.head?_take, if_neg (Nat.succ_ne_zero k)]
  refine ⟨⟨?_, fun c hc => (isDigits_toDigits n).2 c (List.mem_of_mem_take hc)⟩, fun h => ?_⟩
  · simp
  · exact absurd (hhead ▸ h) (head?_toDigits hn)

theorem isFrac_fractionText {ds : List Char} (h : ∀ c ∈ ds, c.isDigit) :
    IsFrac (fractionText ds) := by
  unfold fractionText
  split_ifs with h0
  · exact Or.inl rfl
  · exact Or.inr ⟨_, ⟨h0, fun c hc => h c ((List.rdropWhile_prefix _ _).subset hc)⟩, rfl⟩

theorem isExp_exponentText (e : ℤ) : IsExp (exponentText e) := by
  refine Or.inr ⟨_, _, ?_, ?_, rfl⟩
  · split_ifs
    · exact Or.inr rfl
    · exact Or.inl rfl
  · split_ifs
    · refine ⟨List.cons_ne_nil _ _, fun c hc => ?_⟩
      rcases List.mem_cons.mp hc with rfl | hc
      · decide
      · exact (isDigits_toDigits _).2 c hc
    · exact isDigits_toDigits _

theorem sixDigits_pos (hx : 0 < x) : 0 < (sixDigits x).1 := by
  have hlarge : ((10 ^ 5 : ℤ) : ℚ) ≤ x / 10 ^ (Int.log 10 x - 5) := by
    have hself : (10 : ℚ) ^ Int.log 10 x ≤ x := by
      exact_mod_cast Int.zpow_log_le_self (b := 10) (by decide) hx
    rw [le_div_iff₀ (by positivity), zpow_sub₀ (by norm_num)]
    norm_num
    linarith
  have hround := le_roundEven hlarge
  unfold sixDigits
  simp only
  split_ifs
  · exact Nat.pow_pos (by decide)
  · omega

theorem isNumber_magnitudeText (hx : 0 ≤ x) {minus : List Char}
    (hminus : minus = [] ∨ minus = ['-']) : IsNumber (minus ++ magnitudeText x) := by
  rcases hx.eq_or_lt with rfl | hpos
  · exact ⟨minus, ['0'], [], [], hminus, isInt_toDigits 0, Or.inl rfl, Or.inl rfl, by
      simp [magnitudeText]⟩
  have hn := sixDigits_pos hpos
  rw [magnitudeText, if_neg hpos.ne']
  generalize sixDigits x = six at hn ⊢
  obtain ⟨n, p⟩ := six
  have hdigits := (isDigits_toDigits n).2
  have hdrop : ∀ k, ∀ c ∈ (Nat.toDigits 10 n).drop k, c.isDigit :=
    fun k c hc => hdigits c (List.mem_of_mem_drop hc)
  simp only
  split_ifs
  · exact ⟨minus, _, _, exponentText p, hminus, isInt_take_toDigits hn 0,
      isFrac_fractionText (hdrop 1), isExp_exponentText p, by simp⟩
  · have hzeros : ∀ c ∈ List.replicate (-p - 1).toNat '0' ++ Nat.toDigits 10 n, c.isDigit := by
      intro c hc
      rcases List.mem_append.mp hc with hc | hc
      · rw [List.eq_of_mem_replicate hc]
        rfl
      · exact hdigits c hc
    exact ⟨minus, ['0'], _, [], hminus, isInt_toDigits 0, isFrac_fractionText hzeros, Or.inl rfl,
      by rw [List.append_nil, List.append_assoc]⟩
  · exact ⟨minus, _, _, [], hminus, isInt_take_toDigits hn p.toNat,
      isFrac_fractionText (hdrop (p.toNat + 1)), Or.inl rfl,
      by rw [List.append_nil, List.append_assoc]⟩

theorem signText_cases (neg : Bool) : signText neg = [] ∨ signText neg = ['-'] := by
  rcases neg with _ | _
  · exact Or.inl rfl
  · exact Or.inr rfl

theorem isNumber_intText (n : ℤ) : IsNumber (intText n) :=
  ⟨signText (n < 0), Nat.toDigits 10 n.natAbs, [], [], signText_cases _, isInt_toDigits _,
    Or.inl rfl, Or.inl rfl, by rw [List.append_nil, List.append_nil, intText]⟩

/-- What a reader makes of a printed `float`. -/
def floatValue (x : Binary32) : Option Value :=
  if x.isFinite then some (.number (floatText x)) else none

theorem reads_floatText (x : Binary32) : Reads 1 (floatText x) (floatValue x) := by
  rcases x with ⟨neg, x⟩ | neg | neg
  · exact reads_number (isNumber_magnitudeText x.2.nonneg (signText_cases neg))
  · intro n hn c _ rest
    obtain ⟨n, rfl⟩ : ∃ m, n = m + 1 := ⟨n - 1, by omega⟩
    rcases neg with _ | _ <;> rfl
  · intro n hn c _ rest
    obtain ⟨n, rfl⟩ : ∃ m, n = m + 1 := ⟨n - 1, by omega⟩
    rcases neg with _ | _ <;> rfl

example : (stof (fun _ => false) (text " -1234567.8e-3")).toOption.map floatText =
    some ['-', '1', '2', '3', '4', '.', '5', '7'] := by decide +kernel

example : (stof (fun _ => false) (text "1.5E-7 ")).toOption.map floatText =
    some ['1', '.', '5', 'e', '-', '0', '7'] := by decide +kernel

end SemanticSearch
