import Mathlib.Data.List.Count
import Mathlib.Tactic.Common

namespace SemanticSearch

abbrev CountMap (W D : Type*) [Ord W] [Ord D] := Std.ExtTreeMap W (Std.ExtTreeMap D ℕ)

namespace CountMap

variable {W D : Type*} [Ord W] [Ord D] [Std.TransOrd W] [Std.TransOrd D]

/-- The value of the cell `[w][d]`, if there is one. -/
def cell (m : CountMap W D) (w : W) (d : D) : Option ℕ := m[w]?.bind (·[d]?)

/-- `m[w][d]++`. -/
def bump (m : CountMap W D) (w : W) (d : D) : CountMap W D :=
  m.alter w fun inner => some ((inner.getD ∅).alter d fun n => some (n.getD 0 + 1))

/-- Erases `d` from every inner map and drops the inner maps that this leaves empty. -/
def dropDoc (m : CountMap W D) (d : D) : CountMap W D :=
  m.filterMap fun _ inner =>
    let rest := inner.erase d
    if rest.isEmpty then none else some rest

/-- `m` holds exactly the non-zero values of `occ`, and no empty inner map. -/
structure Represents (m : CountMap W D) (occ : W → D → ℕ) : Prop where
  cell_eq : ∀ w d, m.cell w d = if occ w d = 0 then none else some (occ w d)
  pruned : ∀ w : W, m[w]? ≠ some (∅ : Std.ExtTreeMap D ℕ)

theorem represents_empty : Represents (∅ : CountMap W D) fun _ _ => 0 := by
  constructor <;> simp [cell]

variable {m m' : CountMap W D} {occ occ' : W → D → ℕ}

theorem Represents.cells_iff (h : Represents m occ) {d : D} {n : W → ℕ} :
    (∀ w, m.cell w d = if n w = 0 then none else some (n w)) ↔ ∀ w, occ w d = n w := by
  constructor
  · intro hn w
    have hcell := (h.cell_eq w d).symm.trans (hn w)
    split_ifs at hcell with h0 h0'
    · rw [h0, h0']
    · simpa using hcell
  · intro hn w
    rw [h.cell_eq w d, hn w]

theorem Represents.congr (h : Represents m occ) (he : ∀ w d, occ w d = occ' w d) :
    Represents m occ' := by
  obtain rfl : occ = occ' := funext fun w => funext fun d => he w d
  exact h

theorem cell_bump_inner (m : CountMap W D) (w : W) (d' : D) :
    (m[w]?.getD ∅)[d']? = m.cell w d' := by
  rcases hm : m[w]? with _ | t <;> simp [cell, hm]

section Drop

variable [Std.LawfulEqOrd D] [DecidableEq D]

theorem cell_dropDoc (m : CountMap W D) (d d' : D) (w : W) :
    (m.dropDoc d).cell w d' = if d' = d then none else m.cell w d' := by
  rcases hm : m[w]? with _ | t
  · simp [cell, dropDoc, Std.ExtTreeMap.getElem?_filterMap, hm]
  · have hrest : (t.erase d)[d']? = if d' = d then none else t[d']? := by
      simp only [Std.ExtTreeMap.getElem?_erase, Std.LawfulEqCmp.compare_eq_iff_eq,
        eq_comm (a := d)]
    simp only [cell, dropDoc, Std.ExtTreeMap.getElem?_filterMap, hm, Option.pbind_some,
      Option.bind_some, ← hrest]
    split_ifs with he
    · rw [Std.ExtTreeMap.isEmpty_iff.mp he]; simp
    · rfl

theorem Represents.dropDoc (h : Represents m occ) (d : D) :
    Represents (m.dropDoc d) fun w d' => if d' = d then 0 else occ w d' := by
  constructor
  · intro w d'
    rw [cell_dropDoc]
    split_ifs with hd h0 h0 <;> simp_all [h.cell_eq]
  · intro w he
    simp only [CountMap.dropDoc, Std.ExtTreeMap.getElem?_filterMap] at he
    rcases hm : m[w]? with _ | t
    · simp [hm] at he
    · simp only [hm, Option.pbind_some, Option.ite_none_left_eq_some, Option.some.injEq] at he
      exact he.1 (Std.ExtTreeMap.isEmpty_iff.mpr he.2)

end Drop

variable [Std.LawfulEqOrd W] [Std.LawfulEqOrd D]

theorem Represents.unique (h : Represents m occ) (h' : Represents m' occ) : m = m' := by
  have hcell : ∀ w d, m.cell w d = m'.cell w d := fun w d => by rw [h.cell_eq, h'.cell_eq]
  have hempty : ∀ t : Std.ExtTreeMap D ℕ, (∀ d : D, t[d]? = none) → t = ∅ := fun t ht =>
    Std.ExtTreeMap.ext_getElem? fun d => by simp [ht d]
  apply Std.ExtTreeMap.ext_getElem?
  intro w
  rcases hm : m[w]? with _ | t <;> rcases hm' : m'[w]? with _ | t'
  · rfl
  · refine absurd (hm'.trans (congrArg some (hempty t' fun d => ?_))) (h'.pruned w)
    simpa [cell, hm, hm'] using (hcell w d).symm
  · refine absurd (hm.trans (congrArg some (hempty t fun d => ?_))) (h.pruned w)
    simpa [cell, hm, hm'] using hcell w d
  · congr 1
    exact Std.ExtTreeMap.ext_getElem? fun d => by simpa [cell, hm, hm'] using hcell w d

variable [DecidableEq W] [DecidableEq D]

theorem cell_bump (m : CountMap W D) (w w' : W) (d d' : D) :
    (m.bump w d).cell w' d' =
      if w' = w ∧ d' = d then some ((m.cell w d).getD 0 + 1) else m.cell w' d' := by
  rcases eq_or_ne w' w with rfl | hw
  · simp only [cell, bump, Std.ExtTreeMap.getElem?_alter_self, Option.bind_some,
      Std.ExtTreeMap.getElem?_alter, Std.LawfulEqCmp.compare_eq_iff_eq, true_and]
    rcases eq_or_ne d' d with rfl | hd
    · simp only [↓reduceIte, cell_bump_inner, cell]
    · simp only [hd.symm, hd, ↓reduceIte, cell_bump_inner, cell]
  · simp only [cell, bump, Std.ExtTreeMap.getElem?_alter, Std.LawfulEqCmp.compare_eq_iff_eq,
      hw.symm, hw, ↓reduceIte, false_and]

theorem Represents.bump (h : Represents m occ) (w : W) (d : D) :
    Represents (m.bump w d) fun w' d' => occ w' d' + if w' = w ∧ d' = d then 1 else 0 := by
  constructor
  · intro w' d'
    rw [cell_bump]
    split_ifs with hc h0 h0
    · omega
    · obtain ⟨rfl, rfl⟩ := hc
      rw [h.cell_eq]
      split_ifs with ho <;> simp [ho]
    · simpa [h.cell_eq] using h0
    · simpa [h.cell_eq] using h0
  · intro w' he
    rcases eq_or_ne w' w with rfl | hw
    · simp only [CountMap.bump, Std.ExtTreeMap.getElem?_alter_self, Option.some.injEq] at he
      have hd := congrArg (fun t : Std.ExtTreeMap D ℕ => t[d]?) he
      simp at hd
    · simp only [CountMap.bump, Std.ExtTreeMap.getElem?_alter,
        Std.LawfulEqCmp.compare_eq_iff_eq, hw.symm, ↓reduceIte] at he
      exact h.pruned w' he

theorem Represents.bumpAll [BEq W] [LawfulBEq W] (h : Represents m occ) (ws : List W) (d : D) :
    Represents (ws.foldl (·.bump · d) m) fun w d' => occ w d' + if d' = d then ws.count w else 0 := by
  induction ws generalizing m occ with
  | nil => exact h.congr fun w d' => by simp
  | cons v vs ih =>
    rw [List.foldl_cons]
    apply (ih (h.bump v d)).congr
    intro w d'
    rcases eq_or_ne d' d with rfl | hd
    · rcases eq_or_ne w v with rfl | hw
      · simp; omega
      · simp [hw, List.count_cons_of_ne hw.symm]
    · simp [hd]

end CountMap
end SemanticSearch
