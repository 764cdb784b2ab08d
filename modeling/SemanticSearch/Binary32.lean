import Mathlib.Algebra.Order.Ring.Abs
import SemanticSearch.FloatRounding

namespace SemanticSearch

/-- The absolute values of finite numbers. -/
def IsMagnitude (x : ℚ) : Prop :=
  ∃ (m : ℕ) (e : ℤ), m < 2 ^ 24 ∧ -149 ≤ e ∧ e ≤ 104 ∧ x = m * 2 ^ e

def roundMagnitude (x : ℚ) : ℚ := roundTo 24 (-149) x

theorem IsMagnitude.nonneg {x : ℚ} (h : IsMagnitude x) : 0 ≤ x := by
  obtain ⟨m, e, -, -, -, rfl⟩ := h
  exact mul_nonneg (Nat.cast_nonneg m) (two_zpow_pos e).le

theorem roundMagnitude_zero : roundMagnitude 0 = 0 := by decide +kernel

theorem isMagnitude_roundMagnitude {x : ℚ} (h0 : 0 ≤ x) (h : roundMagnitude x < 2 ^ 128) :
    IsMagnitude (roundMagnitude x) := by
  rcases h0.eq_or_lt with rfl | hpos
  · exact ⟨0, 0, by decide, by decide, by decide, by decide +kernel⟩
  obtain ⟨n, hn, hvalue⟩ : ∃ n : ℕ, n ≤ 2 ^ 24 ∧
      roundMagnitude x = n * 2 ^ lastDigit 24 (-149) x := exists_roundTo_eq h0
  have hbound : roundMagnitude x < 2 ^ (128 : ℤ) := by exact_mod_cast h
  have hmin : -149 ≤ lastDigit 24 (-149) x := le_max_right _ _
  have hmax : lastDigit 24 (-149) x ≤ 104 := by
    by_contra hlarge
    have hlog : 128 ≤ Int.log 2 x := by
      rw [lastDigit] at hlarge
      omega
    have hself : (2 : ℚ) ^ (128 : ℤ) ≤ x := by
      exact_mod_cast (Int.zpow_le_iff_le_log (b := 2) (by decide) hpos).mpr hlog
    exact absurd hbound (not_lt.mpr (zpow_le_roundTo (by decide) (by decide) hself))
  rcases hn.lt_or_eq with hlt | heq
  · exact ⟨n, _, hlt, hmin, hmax, hvalue⟩
  · -- the next power of two has one digit, a place further up
    have htop : roundMagnitude x = 2 ^ (24 + lastDigit 24 (-149) x) := by
      rw [hvalue, heq, zpow_add₀ (by norm_num)]
      norm_num
    rw [htop, zpow_lt_zpow_iff_right₀ (by norm_num)] at hbound
    refine ⟨2 ^ 23, lastDigit 24 (-149) x + 1, by decide, by omega, by omega, ?_⟩
    rw [hvalue, heq, zpow_add_one₀ (by norm_num)]
    push_cast
    ring

/-- A number of the format; a NaN keeps its sign, which is printed. -/
inductive Binary32
  | finite (neg : Bool) (mag : {x : ℚ // IsMagnitude x})
  | infinite (neg : Bool)
  | nan (neg : Bool)
  deriving DecidableEq

namespace Binary32

def isFinite : Binary32 → Bool
  | .finite _ _ => true
  | _ => false

def isNaN : Binary32 → Bool
  | .nan _ => true
  | _ => false

def ofRat (neg : Bool) (x : ℚ) : Binary32 :=
  if h : roundMagnitude |x| < 2 ^ 128 then
    .finite neg ⟨roundMagnitude |x|, isMagnitude_roundMagnitude (abs_nonneg x) h⟩
  else .infinite neg

instance : NatCast Binary32 := ⟨fun n => ofRat false n⟩
instance : Zero Binary32 := ⟨((0 : ℕ) : Binary32)⟩
instance : One Binary32 := ⟨((1 : ℕ) : Binary32)⟩

def signed (neg : Bool) (x : ℚ) : ℚ := if neg then -x else x

/-- A sum of exactly zero is negative only if both numbers are. -/
protected def add : Binary32 → Binary32 → Binary32
  | .nan s, _ => .nan s
  | _, .nan t => .nan t
  | .infinite s, .infinite t => if s = t then .infinite s else .nan true
  | .infinite s, .finite _ _ => .infinite s
  | .finite _ _, .infinite t => .infinite t
  | .finite s x, .finite t y =>
    let sum := signed s x.1 + signed t y.1
    if sum = 0 then ofRat (s && t) 0 else ofRat (sum < 0) sum

protected def div : Binary32 → Binary32 → Binary32
  | .nan s, _ => .nan s
  | _, .nan t => .nan t
  | .infinite _, .infinite _ => .nan true
  | .infinite s, .finite t _ => .infinite (s ^^ t)
  | .finite s _, .infinite t => ofRat (s ^^ t) 0
  | .finite s x, .finite t y =>
    if y.1 = 0 then if x.1 = 0 then .nan true else .infinite (s ^^ t)
    else ofRat (s ^^ t) (x.1 / y.1)

instance : Add Binary32 := ⟨Binary32.add⟩
instance : Div Binary32 := ⟨Binary32.div⟩

/-- The place of a number among the others, the infinite ones beyond all finite ones. -/
def key : Binary32 → ℚ
  | .finite s x => signed s x.1
  | .infinite s => signed s (2 ^ 128)
  | .nan _ => 0

/-- Nothing is less or greater than a NaN. -/
instance : LT Binary32 := ⟨fun a b => a.isNaN = false ∧ b.isNaN = false ∧ a.key < b.key⟩

def Within (k : ℤ) : Binary32 → Prop
  | .finite false x => x.1 ≤ 2 ^ k
  | _ => False

/-- From `y` upwards. -/
def AtLeast (y : ℚ) : Binary32 → Prop
  | .finite false x => y ≤ x.1
  | .infinite false => True
  | _ => False

variable {k : ℤ} {x : ℚ} {a b : Binary32}

theorem Within.isFinite (h : a.Within k) : a.isFinite := by
  rcases a with _ | _ | _
  · rfl
  · exact h.elim
  · exact h.elim

theorem Within.exists (h : a.Within k) : ∃ m, a = .finite false m ∧ m.1 ≤ 2 ^ k := by
  rcases a with ⟨_ | _, m⟩ | _ | _
  · exact ⟨m, rfl, h⟩
  · exact h.elim
  · exact h.elim
  · exact h.elim

theorem AtLeast.cases {y : ℚ} (h : a.AtLeast y) :
    a = .infinite false ∨ ∃ m, a = .finite false m ∧ y ≤ m.1 := by
  rcases a with ⟨_ | _, m⟩ | ⟨_ | _⟩ | _
  · exact Or.inr ⟨m, rfl, h⟩
  · exact h.elim
  · exact Or.inl rfl
  · exact h.elim
  · exact h.elim

theorem within_ofRat (hx : 0 ≤ x) (h : roundMagnitude x ≤ 2 ^ k) (hk : k < 128) :
    (ofRat false x).Within k := by
  have hpow : (2 : ℚ) ^ k < 2 ^ (128 : ℤ) := zpow_lt_zpow_right₀ (by norm_num) hk
  rw [← abs_of_nonneg hx] at h
  rw [ofRat, dif_pos (h.trans_lt (by exact_mod_cast hpow))]
  exact h

theorem within_ofRat_of_le (hx : 0 ≤ x) (h : x ≤ 2 ^ k) (hmin : -149 ≤ k) (hk : k < 128) :
    (ofRat false x).Within k := by
  apply within_ofRat hx _ hk
  rcases hx.eq_or_lt with rfl | hpos
  · rw [roundMagnitude_zero]
    exact (two_zpow_pos k).le
  · exact roundTo_le_zpow (by decide) hmin hpos h

theorem ofRat_magnitude (m : {x : ℚ // IsMagnitude x}) : ofRat false m.1 = .finite false m := by
  obtain ⟨x, hx⟩ := m
  have habs : |x| = x := abs_of_nonneg hx.nonneg
  obtain ⟨m, e, hm, hmin, hmax, rfl⟩ := hx
  have hself : roundMagnitude (m * 2 ^ e) = m * 2 ^ e := roundTo_eq_self hm hmin
  have hlt : (m : ℚ) * 2 ^ e < 2 ^ 128 := by
    have hpow : (2 : ℚ) ^ e ≤ 2 ^ (104 : ℤ) := zpow_le_zpow_right₀ (by norm_num) hmax
    calc (m : ℚ) * 2 ^ e < 2 ^ 24 * 2 ^ e :=
          mul_lt_mul_of_pos_right (by exact_mod_cast hm) (two_zpow_pos e)
      _ ≤ 2 ^ 24 * 2 ^ (104 : ℤ) := mul_le_mul_of_nonneg_left hpow (by norm_num)
      _ = 2 ^ 128 := by norm_num
  simp only [ofRat, habs, hself, dif_pos hlt]

theorem atLeast_zero_ofRat : (ofRat false x).AtLeast 0 := by
  unfold ofRat
  split_ifs with h
  · exact roundTo_nonneg (abs_nonneg x)
  · trivial

theorem atLeast_ofRat (h : 2 ^ k ≤ x) (hk : -149 ≤ k) : (ofRat false x).AtLeast (2 ^ k) := by
  unfold ofRat
  split_ifs
  · exact zpow_le_roundTo (by decide) hk (h.trans (le_abs_self x))
  · trivial

theorem add_finite {m n : {x : ℚ // IsMagnitude x}} :
    (.finite false m : Binary32) + .finite false n = ofRat false (m.1 + n.1) := by
  have hsum : ¬ m.1 + n.1 < 0 := not_lt.mpr (add_nonneg m.2.nonneg n.2.nonneg)
  change Binary32.add _ _ = _
  simp only [Binary32.add, signed, Bool.false_eq_true, if_false, hsum, decide_false]
  split_ifs with h0
  · rw [h0]
    rfl
  · rfl

theorem AtLeast.add (ha : a.AtLeast (2 ^ k)) (hb : b.AtLeast 0) (hk : -149 ≤ k) :
    (a + b).AtLeast (2 ^ k) := by
  rcases ha.cases with rfl | ⟨m, rfl, hm⟩ <;> rcases hb.cases with rfl | ⟨n, rfl, hn⟩
  · trivial
  · trivial
  · trivial
  · rw [add_finite]
    exact atLeast_ofRat (hm.trans (le_add_of_nonneg_right hn)) hk

theorem one_eq : ∃ m : {x : ℚ // IsMagnitude x}, (1 : Binary32) = .finite false m ∧ m.1 = 1 := by
  have h : roundMagnitude |((1 : ℕ) : ℚ)| = 1 := by decide +kernel
  have hlt : roundMagnitude |((1 : ℕ) : ℚ)| < 2 ^ 128 := by
    rw [h]
    norm_num
  refine ⟨⟨roundMagnitude |((1 : ℕ) : ℚ)|, isMagnitude_roundMagnitude (abs_nonneg _) hlt⟩, ?_, h⟩
  exact dif_pos hlt

theorem AtLeast.one_div (h : a.AtLeast (2 ^ k)) (hmin : -149 ≤ -k) (hk : -k < 128) :
    (1 / a).Within (-k) := by
  obtain ⟨u, hone, hu⟩ := one_eq
  rw [hone]
  rcases h.cases with rfl | ⟨m, rfl, hm⟩
  · exact within_ofRat_of_le le_rfl (two_zpow_pos _).le hmin hk
  · have hpos : 0 < m.1 := (two_zpow_pos k).trans_le hm
    change (Binary32.div _ _).Within (-k)
    simp only [Binary32.div, hpos.ne', if_false, Bool.xor_self, hu]
    apply within_ofRat_of_le (by positivity) _ hmin hk
    rw [zpow_neg, ← one_div]
    exact one_div_le_one_div_of_le (two_zpow_pos k) hm

theorem Within.add {j : ℤ} (ha : a.Within k) (hb : b.Within j) (hj : j < k - 24) (hmin : -126 ≤ k)
    (hk : k < 128) : (a + b).Within k := by
  obtain ⟨m, rfl, hm⟩ := ha.exists
  obtain ⟨n, rfl, hn⟩ := hb.exists
  have hnonneg : 0 ≤ m.1 + n.1 := add_nonneg m.2.nonneg n.2.nonneg
  rw [add_finite]
  by_cases hle : m.1 + n.1 ≤ 2 ^ k
  · exact within_ofRat_of_le hnonneg hle (by omega) hk
  · have hsmall : (2 : ℚ) ^ j < 2 ^ (k - (24 : ℕ)) :=
      zpow_lt_zpow_right₀ (by norm_num) (by simpa using hj)
    have hround : roundMagnitude (m.1 + n.1) = 2 ^ k :=
      roundTo_eq_zpow (by decide) (by norm_num; omega) (not_le.mp hle).le (by linarith)
    exact within_ofRat hnonneg hround.le hk

theorem isMagnitude_natCast {n : ℕ} (h : n < 2 ^ 24) : IsMagnitude n :=
  ⟨n, 0, h, by decide, by decide, by simp⟩

theorem natCast_eq {n : ℕ} (h : n < 2 ^ 24) :
    (n : Binary32) = .finite false ⟨n, isMagnitude_natCast h⟩ :=
  ofRat_magnitude ⟨n, isMagnitude_natCast h⟩

theorem natCast_add {m n : ℕ} (h : m + n < 2 ^ 24) :
    (m : Binary32) + (n : Binary32) = ((m + n : ℕ) : Binary32) := by
  rw [natCast_eq (by omega : m < 2 ^ 24), natCast_eq (by omega : n < 2 ^ 24), add_finite]
  change ofRat false ((m : ℚ) + n) = ofRat false ((m + n : ℕ) : ℚ)
  rw [Nat.cast_add]

theorem one_div_natCast {n : ℕ} (h0 : 0 < n) (h : n < 2 ^ 24) :
    1 / (n : Binary32) = ofRat false (1 / n) := by
  have hone : (1 : Binary32) = ((1 : ℕ) : Binary32) := rfl
  have hn : (n : ℚ) ≠ 0 := by positivity
  rw [hone, natCast_eq (by decide : 1 < 2 ^ 24), natCast_eq h]
  change Binary32.div _ _ = _
  simp only [Binary32.div, hn, if_false, Bool.xor_self, Nat.cast_one]

theorem zero_add_finite (m : {x : ℚ // IsMagnitude x}) : 0 + Binary32.finite false m = .finite false m := by
  have hzero : (0 : Binary32) = ((0 : ℕ) : Binary32) := rfl
  have hsum : ((0 : ℕ) : ℚ) + m.1 = m.1 := by simp
  rw [hzero, natCast_eq (by decide : 0 < 2 ^ 24), add_finite]
  change ofRat false (((0 : ℕ) : ℚ) + m.1) = _
  rw [hsum, ofRat_magnitude]

theorem exists_ofRat (h0 : 0 ≤ x) (h : roundMagnitude x < 2 ^ 128) :
    ∃ m, ofRat false x = .finite false m ∧ m.1 = roundMagnitude x := by
  have habs : roundMagnitude |x| = roundMagnitude x := by rw [abs_of_nonneg h0]
  exact ⟨⟨_, isMagnitude_roundMagnitude (abs_nonneg x) (habs ▸ h)⟩, dif_pos (habs ▸ h), habs⟩

end Binary32

end SemanticSearch
