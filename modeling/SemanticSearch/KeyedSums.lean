import Mathlib.Data.List.Count
import Mathlib.Algebra.BigOperators.Ring.Finset
import Mathlib.Tactic.Common

namespace SemanticSearch

/-- A signed integer type: `wrap z` is its value for the number `z`. A sum may be reduced at any
of its additions. -/
structure IntType where
  wrap : ℤ → ℤ
  wrap_add : ∀ a b, wrap (wrap a + b) = wrap (a + b)
  wrap_zero : wrap 0 = 0

namespace IntType

def unbounded : IntType := ⟨id, fun _ _ => rfl, rfl⟩

def int32 : IntType where
  wrap z := z.bmod (2 ^ 32)
  wrap_add _ _ := Int.bmod_add_bmod
  wrap_zero := rfl

end IntType

abbrev SumMap (K : Type*) [Ord K] := Std.ExtTreeMap K ℤ

namespace SumMap

variable {K : Type*} {log log' : List (K × ℤ)}

section Amounts

variable [DecidableEq K]

/-- What `log` adds under `key`. -/
def amounts (key : K) (log : List (K × ℤ)) : List ℤ := (log.filter (·.1 = key)).map Prod.snd

theorem amounts_concat (key : K) (log : List (K × ℤ)) (p : K × ℤ) :
    amounts key (log ++ [p]) = amounts key log ++ if p.1 = key then [p.2] else [] := by
  by_cases hp : p.1 = key <;> simp [amounts, hp]

theorem amounts_perm (hp : log.Perm log') (key : K) :
    (amounts key log).Perm (amounts key log') := (hp.filter _).map _

end Amounts

variable [Ord K] [Std.TransOrd K] (int : IntType)

/-- `m[key] += n`. -/
def addTo (m : SumMap K) (key : K) (n : ℤ) : SumMap K :=
  m.alter key fun old => some (int.wrap (old.getD 0 + n))

variable [DecidableEq K]

/-- `m` has the sums of the additions in `log`, in their type. -/
def Holds (m : SumMap K) (log : List (K × ℤ)) : Prop :=
  ∀ key, m[key]? =
    if (amounts key log).isEmpty then none else some (int.wrap (amounts key log).sum)

theorem holds_empty : Holds int (∅ : SumMap K) [] := by simp [Holds, amounts]

variable {int} {m : SumMap K}

theorem Holds.perm (h : Holds int m log) (hp : log.Perm log') : Holds int m log' := by
  intro key
  have hkey := amounts_perm hp key
  rw [h key, hkey.sum_eq, hkey.isEmpty_eq]

variable [Std.LawfulEqOrd K]

theorem Holds.addTo (h : Holds int m log) (key : K) (n : ℤ) :
    Holds int (addTo int m key n) (log ++ [(key, n)]) := by
  intro key'
  rw [amounts_concat, SumMap.addTo, Std.ExtTreeMap.getElem?_alter]
  simp only [Std.LawfulEqCmp.compare_eq_iff_eq]
  rcases eq_or_ne key key' with rfl | hne
  · have hold : int.wrap (m[key]?.getD 0 + n) = int.wrap ((amounts key log).sum + n) := by
      rw [h key]
      split_ifs with h0
      · simp [List.isEmpty_iff.mp h0]
      · exact int.wrap_add _ _
    simpa using hold
  · simpa [hne] using h key'

end SumMap
end SemanticSearch
