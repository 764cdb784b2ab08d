import Mathlib.Data.Int.Log
import Mathlib.Data.Rat.Floor
import Mathlib.Algebra.Order.Field.Power
import Mathlib.Tactic.Linarith
import Mathlib.Tactic.Positivity
import Mathlib.Tactic.NormNum

namespace SemanticSearch

/-- The nearest integer, of two the even one. -/
def roundEven (x : ℚ) : ℤ :=
  if x - ⌊x⌋ < 1 / 2 ∨ x - ⌊x⌋ = 1 / 2 ∧ Even ⌊x⌋ then ⌊x⌋ else ⌊x⌋ + 1

variable {x : ℚ} {n : ℤ}

theorem le_roundEven (h : n ≤ x) : n ≤ roundEven x := by
  have hfloor : n ≤ ⌊x⌋ := Int.le_floor.mpr h
  unfold roundEven
  split_ifs <;> omega

theorem roundEven_le (h : x ≤ n) : roundEven x ≤ n := by
  have hfloor : ⌊x⌋ ≤ n := by
    have := Int.floor_mono h
    rwa [Int.floor_intCast] at this
  unfold roundEven
  split_ifs with hhalf
  · exact hfloor
  · -- `x` is no integer, so the floor is smaller than `n`
    have hlt : (⌊x⌋ : ℚ) < x := by
      by_contra hge
      have := Int.floor_le x
      exact hhalf (Or.inl (by linarith))
    have : (⌊x⌋ : ℚ) < n := hlt.trans_le h
    exact_mod_cast this

theorem roundEven_eq (h : n ≤ x) (hx : x < n + 1 / 2) : roundEven x = n := by
  have hfloor : ⌊x⌋ = n := Int.floor_eq_iff.mpr ⟨h, by linarith⟩
  rw [roundEven, hfloor, if_pos (Or.inl (by linarith))]

theorem roundEven_intCast (n : ℤ) : roundEven n = n :=
  roundEven_eq (le_refl _) (by linarith)

theorem roundEven_mono {y : ℚ} (h : x ≤ y) : roundEven x ≤ roundEven y := by
  rcases (Int.floor_mono h).lt_or_eq with hlt | heq
  · -- the next integer is between them
    have hx : roundEven x ≤ ⌊x⌋ + 1 := by
      apply roundEven_le
      rw [Int.cast_add, Int.cast_one]
      exact (Int.lt_floor_add_one x).le
    have hy : ⌊y⌋ ≤ roundEven y := le_roundEven (Int.floor_le y)
    omega
  · unfold roundEven
    rw [← heq]
    split_ifs with hx hy hy
    · exact le_refl _
    · omega
    · exfalso
      have hfloor := sub_le_sub_right h (⌊x⌋ : ℚ)
      rw [not_or, not_lt] at hx
      rcases hy with hy | ⟨hy, heven⟩
      · linarith [hx.1]
      · exact hx.2 ⟨le_antisymm (hfloor.trans hy.le) hx.1, heven⟩
    · exact le_refl _

/-- The exponent of the last digit of `x`. -/
def lastDigit (p : ℕ) (emin : ℤ) (x : ℚ) : ℤ := max (Int.log 2 x + 1 - p) emin

def roundTo (p : ℕ) (emin : ℤ) (x : ℚ) : ℚ :=
  roundEven (x / 2 ^ lastDigit p emin x) * 2 ^ lastDigit p emin x

variable {p : ℕ} {emin k : ℤ}

theorem two_zpow_pos (k : ℤ) : (0 : ℚ) < 2 ^ k := zpow_pos (by norm_num) k

theorem roundTo_nonneg (h : 0 ≤ x) : 0 ≤ roundTo p emin x := by
  have hdiv : ((0 : ℤ) : ℚ) ≤ x / 2 ^ lastDigit p emin x := by
    rw [Int.cast_zero]
    exact div_nonneg h (two_zpow_pos _).le
  have hround : (0 : ℚ) ≤ roundEven (x / 2 ^ lastDigit p emin x) := by
    exact_mod_cast le_roundEven hdiv
  exact mul_nonneg hround (two_zpow_pos _).le

theorem zpow_div_lastDigit {e : ℤ} (h : e ≤ k) :
    (2 : ℚ) ^ k / 2 ^ e = ((2 ^ (k - e).toNat : ℤ) : ℚ) := by
  have hcast : ((k - e).toNat : ℤ) = k - e := Int.toNat_of_nonneg (by omega)
  rw [← zpow_sub₀ (by norm_num), Int.cast_pow, Int.cast_ofNat, ← zpow_natCast, hcast]

theorem roundTo_le_zpow (hp : 0 < p) (hk : emin ≤ k) (h0 : 0 < x) (h : x ≤ 2 ^ k) :
    roundTo p emin x ≤ 2 ^ k := by
  have hlog : Int.log 2 x ≤ k := by
    have hnext : x < 2 ^ (k + 1) := h.trans_lt (zpow_lt_zpow_right₀ (by norm_num) (by omega))
    have := (Int.lt_zpow_iff_log_lt (b := 2) (by decide) h0).mp (by exact_mod_cast hnext)
    omega
  have he : lastDigit p emin x ≤ k := by
    unfold lastDigit
    omega
  have hdiv : x / 2 ^ lastDigit p emin x ≤ ((2 ^ (k - lastDigit p emin x).toNat : ℤ) : ℚ) := by
    rw [← zpow_div_lastDigit he]
    exact div_le_div_of_nonneg_right h (two_zpow_pos _).le
  have hround : (roundEven (x / 2 ^ lastDigit p emin x) : ℚ) ≤ 2 ^ k / 2 ^ lastDigit p emin x := by
    rw [zpow_div_lastDigit he]
    exact_mod_cast roundEven_le hdiv
  rwa [le_div_iff₀ (two_zpow_pos _)] at hround

theorem zpow_le_roundTo (hp : 0 < p) (hk : emin ≤ k) (h : 2 ^ k ≤ x) :
    2 ^ k ≤ roundTo p emin x := by
  have h0 : 0 < x := (two_zpow_pos k).trans_le h
  have hlog : k ≤ Int.log 2 x := (Int.zpow_le_iff_le_log (by decide) h0).mp (by exact_mod_cast h)
  -- the power of two below `x` is a number of `p` digits
  have he : lastDigit p emin x ≤ Int.log 2 x := by
    unfold lastDigit
    omega
  have hself : (2 : ℚ) ^ Int.log 2 x ≤ x := by
    exact_mod_cast Int.zpow_log_le_self (b := 2) (by decide) h0
  have hdiv : ((2 ^ (Int.log 2 x - lastDigit p emin x).toNat : ℤ) : ℚ) ≤
      x / 2 ^ lastDigit p emin x := by
    rw [← zpow_div_lastDigit he]
    exact div_le_div_of_nonneg_right hself (two_zpow_pos _).le
  have hround : (2 : ℚ) ^ Int.log 2 x / 2 ^ lastDigit p emin x ≤
      roundEven (x / 2 ^ lastDigit p emin x) := by
    rw [zpow_div_lastDigit he]
    exact_mod_cast le_roundEven hdiv
  rw [div_le_iff₀ (two_zpow_pos _)] at hround
  exact (zpow_le_zpow_right₀ (by norm_num) hlog).trans hround

theorem roundTo_zero : roundTo p emin 0 = 0 := by
  have h0 := roundEven_intCast 0
  rw [Int.cast_zero] at h0
  simp [roundTo, h0]

theorem roundTo_mono {y : ℚ} (hp : 0 < p) (h0 : 0 ≤ x) (h : x ≤ y) :
    roundTo p emin x ≤ roundTo p emin y := by
  rcases h0.eq_or_lt with rfl | hpos
  · rw [roundTo_zero]
    exact roundTo_nonneg h
  have hlog : Int.log 2 x ≤ Int.log 2 y := Int.log_mono_right hpos h
  rcases (show lastDigit p emin x ≤ lastDigit p emin y by unfold lastDigit; omega).lt_or_eq
    with hlt | heq
  · -- a power of two that has its last digit is between them
    have hbetween : Int.log 2 x < Int.log 2 y ∧ emin ≤ Int.log 2 y := by
      unfold lastDigit at hlt
      omega
    have hx : x ≤ 2 ^ Int.log 2 y :=
      ((Int.lt_zpow_iff_log_lt (b := 2) (by decide) hpos).mpr hbetween.1).le
    have hy : (2 : ℚ) ^ Int.log 2 y ≤ y := by
      exact_mod_cast Int.zpow_log_le_self (b := 2) (by decide) (hpos.trans_le h)
    exact (roundTo_le_zpow hp hbetween.2 hpos hx).trans (zpow_le_roundTo hp hbetween.2 hy)
  · have hdiv : x / 2 ^ lastDigit p emin y ≤ y / 2 ^ lastDigit p emin y :=
      div_le_div_of_nonneg_right h (two_zpow_pos _).le
    rw [roundTo, roundTo, heq]
    apply mul_le_mul_of_nonneg_right _ (two_zpow_pos _).le
    exact_mod_cast roundEven_mono hdiv

theorem exists_roundTo_eq (h0 : 0 ≤ x) :
    ∃ n : ℕ, n ≤ 2 ^ p ∧ roundTo p emin x = n * 2 ^ lastDigit p emin x := by
  set e := lastDigit p emin x with he
  have hnonneg : 0 ≤ roundEven (x / 2 ^ e) := by
    apply le_roundEven
    rw [Int.cast_zero]
    exact div_nonneg h0 (two_zpow_pos e).le
  have hself : x < 2 ^ (Int.log 2 x + 1) := by
    exact_mod_cast Int.lt_zpow_succ_log_self (b := 2) (by decide) x
  have hplace : Int.log 2 x + 1 ≤ p + e := by
    rw [he, lastDigit]
    omega
  have hlt : x < 2 ^ (p + e) := hself.trans_le (zpow_le_zpow_right₀ (by norm_num) hplace)
  have hdigits : roundEven (x / 2 ^ e) ≤ 2 ^ p := by
    apply roundEven_le
    rw [div_le_iff₀ (two_zpow_pos e)]
    rw [zpow_add₀ (by norm_num), zpow_natCast] at hlt
    push_cast
    exact hlt.le
  obtain ⟨n, hn⟩ := Int.eq_ofNat_of_zero_le hnonneg
  rw [hn] at hdigits
  refine ⟨n, by exact_mod_cast hdigits, ?_⟩
  rw [roundTo, ← he, hn]
  rfl

theorem roundTo_eq_self {m : ℕ} {e : ℤ} (hm : m < 2 ^ p) (he : emin ≤ e) :
    roundTo p emin (m * 2 ^ e) = m * 2 ^ e := by
  rcases Nat.eq_zero_or_pos m with rfl | hpos
  · rw [Nat.cast_zero, zero_mul, roundTo_zero]
  have h0 : (0 : ℚ) < m * 2 ^ e := mul_pos (by exact_mod_cast hpos) (two_zpow_pos e)
  have hlt : (m : ℚ) * 2 ^ e < 2 ^ (p + e) := by
    rw [zpow_add₀ (by norm_num), zpow_natCast]
    exact mul_lt_mul_of_pos_right (by exact_mod_cast hm) (two_zpow_pos e)
  have hlog : Int.log 2 ((m : ℚ) * 2 ^ e) < p + e :=
    (Int.lt_zpow_iff_log_lt (by decide) h0).mp (by exact_mod_cast hlt)
  have hplace : lastDigit p emin (m * 2 ^ e) ≤ e := by
    unfold lastDigit
    omega
  set k := lastDigit p emin (m * 2 ^ e)
  have hdiv : (m : ℚ) * 2 ^ e / 2 ^ k = ((m * 2 ^ (e - k).toNat : ℤ) : ℚ) := by
    rw [mul_div_assoc, zpow_div_lastDigit hplace]
    push_cast
    rfl
  have hround : (roundEven ((m : ℚ) * 2 ^ e / 2 ^ k) : ℚ) = m * 2 ^ e / 2 ^ k := by
    rw [hdiv, roundEven_intCast]
  change (roundEven ((m : ℚ) * 2 ^ e / 2 ^ k) : ℚ) * 2 ^ k = _
  rw [hround, div_mul_cancel₀ _ (two_zpow_pos k).ne']

theorem roundTo_eq_zpow (hp : 0 < p) (hk : emin ≤ k + 1 - p) (h : 2 ^ k ≤ x)
    (hx : x < 2 ^ k + 2 ^ (k - p)) : roundTo p emin x = 2 ^ k := by
  have h0 : 0 < x := (two_zpow_pos k).trans_le h
  have htop : (2 : ℚ) ^ k + 2 ^ (k - p) ≤ 2 ^ (k + 1) := by
    have hle : (2 : ℚ) ^ (k - p) ≤ 2 ^ k := zpow_le_zpow_right₀ (by norm_num) (by omega)
    rw [zpow_add_one₀ (by norm_num)]
    linarith
  have hlog : Int.log 2 x = k := by
    have h1 : k ≤ Int.log 2 x := (Int.zpow_le_iff_le_log (by decide) h0).mp (by exact_mod_cast h)
    have h2 : Int.log 2 x < k + 1 :=
      (Int.lt_zpow_iff_log_lt (by decide) h0).mp (by exact_mod_cast hx.trans_le htop)
    omega
  have he : lastDigit p emin x = k + 1 - p := by
    unfold lastDigit
    omega
  have hdiv := zpow_div_lastDigit (e := k + 1 - p) (k := k) (by omega)
  have hhalf : (2 : ℚ) ^ (k - p) / 2 ^ (k + 1 - p) = 1 / 2 := by
    rw [← zpow_sub₀ (by norm_num), show k - p - (k + 1 - p) = -1 by omega]
    norm_num
  have hpos := two_zpow_pos (k + 1 - p)
  have hround : roundEven (x / 2 ^ (k + 1 - p)) = 2 ^ (k - (k + 1 - p)).toNat := by
    apply roundEven_eq
    · rw [← hdiv]
      exact div_le_div_of_nonneg_right h hpos.le
    · rw [← hdiv, ← hhalf, ← add_div]
      exact div_lt_div_of_pos_right hx hpos
  rw [roundTo, he, hround, ← hdiv, div_mul_cancel₀ _ hpos.ne']

theorem abs_roundEven_sub_le (x : ℚ) : |(roundEven x : ℚ) - x| ≤ 1 / 2 := by
  have hlow := Int.floor_le x
  have hhigh := Int.lt_floor_add_one x
  unfold roundEven
  split_ifs with hhalf
  · have hle : x - ⌊x⌋ ≤ 1 / 2 := hhalf.elim le_of_lt fun h => h.1.le
    rw [abs_le]
    constructor <;> linarith
  · have hge : 1 / 2 ≤ x - ⌊x⌋ := not_lt.mp fun h => hhalf (Or.inl h)
    push_cast
    rw [abs_le]
    constructor <;> linarith

theorem abs_roundTo_sub_le (p : ℕ) (emin : ℤ) (x : ℚ) :
    |roundTo p emin x - x| ≤ 2 ^ lastDigit p emin x / 2 := by
  set e := lastDigit p emin x with he
  have hpos := two_zpow_pos e
  have hscaled : roundTo p emin x - x = (roundEven (x / 2 ^ e) - x / 2 ^ e) * 2 ^ e := by
    rw [sub_mul, div_mul_cancel₀ _ hpos.ne']
    rfl
  have herror := mul_le_mul_of_nonneg_right (abs_roundEven_sub_le (x / 2 ^ e)) hpos.le
  rw [hscaled, abs_mul, abs_of_pos hpos]
  linarith

theorem abs_roundTo_sub_le_of_lt (h0 : 0 < x) (h : x < 2 ^ k) (hk : emin ≤ k - p) :
    |roundTo p emin x - x| ≤ 2 ^ (k - p) / 2 := by
  have hlog : Int.log 2 x < k := (Int.lt_zpow_iff_log_lt (by decide) h0).mp (by exact_mod_cast h)
  have hplace : lastDigit p emin x ≤ k - p := by
    unfold lastDigit
    omega
  have hle : (2 : ℚ) ^ lastDigit p emin x ≤ 2 ^ (k - p) := zpow_le_zpow_right₀ (by norm_num) hplace
  have herror := abs_roundTo_sub_le p emin x
  linarith

theorem abs_roundTo_sub_le_mul (hk : emin ≤ k + 1 - p) (h : 2 ^ k ≤ x) :
    |roundTo p emin x - x| ≤ x * 2 ^ (-p : ℤ) := by
  have h0 : 0 < x := (two_zpow_pos k).trans_le h
  have hlog : k ≤ Int.log 2 x := (Int.zpow_le_iff_le_log (by decide) h0).mp (by exact_mod_cast h)
  have hself : (2 : ℚ) ^ Int.log 2 x ≤ x := by
    exact_mod_cast Int.zpow_log_le_self (b := 2) (by decide) h0
  have hplace : lastDigit p emin x = Int.log 2 x + (-p : ℤ) + 1 := by
    unfold lastDigit
    omega
  have herror := abs_roundTo_sub_le p emin x
  rw [hplace, zpow_add_one₀ (by norm_num), mul_div_assoc, zpow_add₀ (by norm_num)] at herror
  have hscaled := mul_le_mul_of_nonneg_right hself (two_zpow_pos (-p)).le
  linarith

end SemanticSearch
