import Mathlib.Data.List.TakeWhile
import Mathlib.Tactic.Common

namespace SemanticSearch

variable {α β : Type*} {p : α → Bool} {s a b : List α} {c : α}

/-- What stands in `s` from the first position of `r` up to the second. -/
def between (s : List α) (r : ℕ × ℕ) : List α := (s.drop r.1).take (r.2 - r.1)

/-- The elements in `r` have `p`, and those next to it do not. -/
structure IsMaximalRun (p : α → Bool) (s : List α) (r : ℕ × ℕ) : Prop where
  nonempty : r.1 < r.2
  within : r.2 ≤ s.length
  inside : ∀ k, r.1 ≤ k → k < r.2 → ∀ x ∈ s[k]?, p x
  left : ∀ k, k + 1 = r.1 → ∀ x ∈ s[k]?, p x = false
  right : ∀ x ∈ s[r.2]?, p x = false

/-- The same stretch of a list that has `n` more elements in front. -/
def shiftRun (n : ℕ) (r : ℕ × ℕ) : ℕ × ℕ := (n + r.1, n + r.2)

theorem between_shiftRun (a s : List α) (r : ℕ × ℕ) :
    between (a ++ s) (shiftRun a.length r) = between s r := by
  rw [between, shiftRun, List.drop_append, List.drop_of_length_le (by omega), List.nil_append,
    Nat.add_sub_cancel_left, Nat.add_sub_add_left, between]

theorem between_append (a s : List α) : between (a ++ s) (0, a.length) = a := by
  rw [between, List.drop_zero, Nat.sub_zero, List.take_left]

theorem runInduction {P : List α → Prop} (last : ∀ a, (∀ x ∈ a, p x) → P a)
    (sep : ∀ a c b, (∀ x ∈ a, p x) → p c = false → P b → P (a ++ c :: b)) (s : List α) : P s := by
  induction hn : s.length using Nat.strong_induction_on generalizing s with
  | _ n ih =>
    have hall : ∀ x ∈ s.takeWhile p, p x := fun x hx => List.mem_takeWhile_imp hx
    rw [← List.takeWhile_append_dropWhile (p := p) (l := s)] at hn ⊢
    rcases hd : s.dropWhile p with _ | ⟨c, b⟩
    · rw [List.append_nil]
      exact last _ hall
    · have hc : p c = false := by
        have hhead := List.head?_dropWhile_not p s
        rw [hd] at hhead
        simpa using hhead
      rw [hd, List.length_append, List.length_cons] at hn
      exact sep _ c b hall hc (ih b.length (by omega) b rfl)

theorem isMaximalRun_all_iff (ha : ∀ x ∈ a, p x) {r : ℕ × ℕ} :
    IsMaximalRun p a r ↔ a ≠ [] ∧ r = (0, a.length) := by
  have hget : ∀ k < a.length, ∃ x ∈ a[k]?, p x := fun k hk =>
    ⟨a[k], List.getElem?_eq_getElem hk, ha _ (List.getElem_mem hk)⟩
  constructor
  · intro h
    obtain ⟨i, j⟩ := r
    have hlt : i < j := h.nonempty
    have hle : j ≤ a.length := h.within
    have hi : i = 0 := by
      by_contra hi
      obtain ⟨x, hx, hpx⟩ := hget (i - 1) (by omega)
      simp [h.left (i - 1) (by simp; omega) x hx] at hpx
    have hj : j = a.length := by
      by_contra hj
      obtain ⟨x, hx, hpx⟩ := hget j (by omega)
      simp [h.right x hx] at hpx
    exact ⟨List.ne_nil_of_length_pos (by omega), by rw [hi, hj]⟩
  · rintro ⟨h0, rfl⟩
    refine ⟨List.length_pos_iff.mpr h0, le_rfl, fun k _ _ x hx => ?_, fun k hk => ?_, by simp⟩
    · exact ha x (List.mem_of_getElem? hx)
    · simp at hk

theorem isMaximalRun_left_iff (hc : p c = false) {r : ℕ × ℕ} (hr : r.2 ≤ a.length) :
    IsMaximalRun p (a ++ c :: b) r ↔ IsMaximalRun p a r := by
  have hleft : ∀ k < a.length, (a ++ c :: b)[k]? = a[k]? := fun k hk =>
    List.getElem?_append_left hk
  have hmid : (a ++ c :: b)[a.length]? = some c := by simp
  constructor
  · intro h
    have hlt := h.nonempty
    refine ⟨hlt, hr, fun k hik hkj x hx => ?_, fun k hk x hx => ?_, fun x hx => ?_⟩
    · exact h.inside k hik hkj x (by rwa [hleft k (by omega)])
    · exact h.left k hk x (by rwa [hleft k (by omega)])
    · rcases hr.eq_or_lt with heq | hend
      · simp [heq] at hx
      · exact h.right x (by rwa [hleft _ hend])
  · intro h
    have hlt := h.nonempty
    refine ⟨hlt, by simp; omega, fun k hik hkj x hx => ?_, fun k hk x hx => ?_, fun x hx => ?_⟩
    · exact h.inside k hik hkj x (by rwa [← hleft k (by omega)])
    · exact h.left k hk x (by rwa [← hleft k (by omega)])
    · rcases hr.eq_or_lt with heq | hend
      · obtain rfl : c = x := by simpa [heq, hmid] using hx
        exact hc
      · exact h.right x (by rwa [← hleft _ hend])

theorem isMaximalRun_shiftRun_iff (hc : p c = false) {q : ℕ × ℕ} :
    IsMaximalRun p (a ++ c :: b) (shiftRun (a.length + 1) q) ↔ IsMaximalRun p b q := by
  have hmid : (a ++ c :: b)[a.length]? = some c := by simp
  have hright : ∀ k, (a ++ c :: b)[a.length + 1 + k]? = b[k]? := by
    intro k
    rw [List.getElem?_append_right (by omega), show a.length + 1 + k - a.length = k + 1 by omega,
      List.getElem?_cons_succ]
  have hlength : (a ++ c :: b).length = a.length + 1 + b.length := by
    simp only [List.length_append, List.length_cons]
    omega
  constructor
  · intro h
    have hlt := h.nonempty
    have hle := h.within
    rw [hlength] at hle
    simp only [shiftRun] at hlt hle
    refine ⟨by omega, by omega, fun k hik hkj x hx => ?_, fun k hk x hx => ?_, fun x hx => ?_⟩
    · exact h.inside (a.length + 1 + k) (by simp [shiftRun, hik]) (by simp [shiftRun, hkj]) x
        (by rwa [hright])
    · exact h.left (a.length + 1 + k) (by simp only [shiftRun]; omega) x (by rwa [hright])
    · exact h.right x (by rwa [shiftRun, hright])
  · intro h
    have hlt := h.nonempty
    have hle := h.within
    refine ⟨?_, ?_, fun k hik hkj x hx => ?_, fun k hk x hx => ?_, fun x hx => ?_⟩
    · simp only [shiftRun]
      omega
    · rw [hlength]
      simp only [shiftRun]
      omega
    · simp only [shiftRun] at hik hkj
      obtain ⟨k, rfl⟩ := Nat.exists_eq_add_of_le (show a.length + 1 ≤ k by omega)
      exact h.inside k (by omega) (by omega) x (by rwa [hright] at hx)
    · simp only [shiftRun] at hk
      -- in front of a run that begins at once stands the element without the property
      rcases Nat.eq_zero_or_pos q.1 with h0 | hpos
      · obtain rfl : k = a.length := by omega
        obtain rfl : c = x := by simpa [hmid] using hx
        exact hc
      · obtain ⟨k, rfl⟩ := Nat.exists_eq_add_of_le (show a.length + 1 ≤ k by omega)
        exact h.left k (by omega) x (by rwa [hright] at hx)
    · exact h.right x (by rwa [shiftRun, hright] at hx)

theorem isMaximalRun_append_cons_iff (ha : ∀ x ∈ a, p x) (hc : p c = false) {r : ℕ × ℕ} :
    IsMaximalRun p (a ++ c :: b) r ↔
      (a ≠ [] ∧ r = (0, a.length)) ∨ ∃ q, IsMaximalRun p b q ∧ r = shiftRun (a.length + 1) q := by
  have hmid : (a ++ c :: b)[a.length]? = some c := by simp
  constructor
  · intro h
    have hlt := h.nonempty
    have hside : r.2 ≤ a.length ∨ a.length < r.1 := by
      by_contra hboth
      rw [not_or, not_le, not_lt] at hboth
      simp [h.inside a.length hboth.2 hboth.1 c hmid] at hc
    rcases hside with hr | hr
    · left
      rw [← isMaximalRun_all_iff ha]
      exact (isMaximalRun_left_iff hc hr).mp h
    · right
      obtain ⟨q, rfl⟩ : ∃ q, r = shiftRun (a.length + 1) q := by
        refine ⟨(r.1 - (a.length + 1), r.2 - (a.length + 1)), Prod.ext ?_ ?_⟩
        · simp only [shiftRun]
          omega
        · simp only [shiftRun]
          omega
      exact ⟨q, (isMaximalRun_shiftRun_iff hc).mp h, rfl⟩
  · rintro (h | ⟨q, h, rfl⟩)
    · have hr := (isMaximalRun_all_iff ha).mpr h
      exact (isMaximalRun_left_iff hc hr.within).mpr hr
    · exact (isMaximalRun_shiftRun_iff hc).mpr h

theorem exists_maximalRuns (f : List α → List β) (g : List α → β) (hnil : f [] = [])
    (hword : ∀ a, a ≠ [] → (∀ x ∈ a, p x) → f a = [g a])
    (hsep : ∀ a c b, p c = false → f (a ++ c :: b) = f a ++ f b) (s : List α) :
    ∃ runs : List (ℕ × ℕ), (∀ r, r ∈ runs ↔ IsMaximalRun p s r) ∧
      runs.Pairwise (fun q r => q.2 < r.1) ∧ f s = runs.map fun r => g (between s r) := by
  -- the runs of the part without a separator
  have hfirst : ∀ a, (∀ x ∈ a, p x) → ∀ t, ∃ runs : List (ℕ × ℕ),
      (∀ r, r ∈ runs ↔ a ≠ [] ∧ r = (0, a.length)) ∧ runs.Pairwise (fun q r => q.2 < r.1) ∧
        f a = runs.map fun r => g (between (a ++ t) r) := by
    intro a ha t
    rcases eq_or_ne a [] with rfl | h0
    · exact ⟨[], by simp, List.Pairwise.nil, hnil⟩
    · refine ⟨[(0, a.length)], by simp [h0], List.pairwise_singleton _ _, ?_⟩
      rw [hword a h0 ha, List.map_singleton, between_append]
  induction s using runInduction (p := p) with
  | last a ha =>
    obtain ⟨runs, hmem, hpair, hf⟩ := hfirst a ha []
    refine ⟨runs, fun r => (hmem r).trans (isMaximalRun_all_iff ha).symm, hpair, ?_⟩
    rw [hf, List.append_nil]
  | sep a c b ha hc ih =>
    obtain ⟨runs, hmem, hpair, hf⟩ := hfirst a ha (c :: b)
    obtain ⟨rest, hrest, hsorted, hfb⟩ := ih
    have hbetween : ∀ r, between (a ++ c :: b) (shiftRun (a.length + 1) r) = between b r := by
      intro r
      have h := between_shiftRun (a ++ [c]) b r
      rwa [List.append_assoc, List.singleton_append, List.length_append, List.length_singleton] at h
    refine ⟨runs ++ rest.map (shiftRun (a.length + 1)), fun r => ?_, ?_, ?_⟩
    · rw [isMaximalRun_append_cons_iff ha hc, List.mem_append, hmem, List.mem_map]
      simp only [hrest, eq_comm]
    · rw [List.pairwise_append, List.pairwise_map]
      refine ⟨hpair, hsorted.imp fun {q r} h => ?_, fun q hq r hr => ?_⟩
      · simp only [shiftRun]
        omega
      · obtain ⟨-, rfl⟩ := (hmem q).mp hq
        obtain ⟨q', -, rfl⟩ := List.mem_map.mp hr
        simp only [shiftRun]
        omega
    · rw [hsep a c b hc, hf, hfb, List.map_append, List.map_map]
      simp only [Function.comp_def, hbetween]

end SemanticSearch
