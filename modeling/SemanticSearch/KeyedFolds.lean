import Mathlib.Data.List.Basic
import Mathlib.Tactic.Common

namespace SemanticSearch.KeyedFold

variable {K V A : Type*}

/-- What `log` puts under `key`. -/
def under [DecidableEq K] (key : K) (log : List (K × A)) : List A :=
  (log.filter (·.1 = key)).map Prod.snd

theorem under_append [DecidableEq K] (key : K) (log log' : List (K × A)) :
    under key (log ++ log') = under key log ++ under key log' := by simp [under]

theorem under_eq_nil [DecidableEq K] {key : K} {log : List (K × A)} :
    under key log = [] ↔ key ∉ log.map Prod.fst := by
  simp only [under, List.map_eq_nil_iff, List.filter_eq_nil_iff, decide_eq_true_eq, List.mem_map,
    not_exists, not_and]

variable [Ord K] [Std.TransOrd K] (op : V → A → V) (z : V)

def accumulate (m : Std.ExtTreeMap K V) (p : K × A) : Std.ExtTreeMap K V :=
  m.alter p.1 fun old => some (op (old.getD z) p.2)

variable [DecidableEq K] [Std.LawfulEqOrd K] {op z}

theorem getElem?_foldl_accumulate (m : Std.ExtTreeMap K V) (log : List (K × A)) (key : K) :
    (log.foldl (accumulate op z) m)[key]? =
      if (under key log).isEmpty then m[key]?
      else some ((under key log).foldl op (m[key]?.getD z)) := by
  induction log generalizing m with
  | nil => rfl
  | cons p log ih =>
    rw [List.foldl_cons, ih, accumulate, Std.ExtTreeMap.getElem?_alter]
    simp only [Std.LawfulEqCmp.compare_eq_iff_eq]
    by_cases hp : p.1 = key
    · subst hp
      have hcons : under p.1 (p :: log) = p.2 :: under p.1 log := by simp [under]
      rw [hcons]
      rcases hu : under p.1 log with _ | ⟨x, xs⟩ <;> simp
    · have hcons : under key (p :: log) = under key log := by simp [under, hp]
      rw [hcons, if_neg hp]

omit [DecidableEq K] in
theorem nodup_keys (m : Std.ExtTreeMap K V) : (m.toList.map Prod.fst).Nodup := by
  refine List.pairwise_map.mpr (m.distinct_keys_toList.imp fun hab he => hab ?_)
  rw [he]
  exact Std.ReflCmp.compare_self

end SemanticSearch.KeyedFold

namespace SemanticSearch.KeyedFold

variable {K V A : Type*} {key : A → K} {v w : A → V} {l : List A}

/-- Nothing later in `l` has the key of `a`. -/
def IsLast (key : A → K) (a : A) (l : List A) : Prop :=
  ∃ l₁ l₂, l = l₁ ++ a :: l₂ ∧ ∀ b ∈ l₂, key b ≠ key a

theorem IsLast.mem {a : A} (h : IsLast key a l) : a ∈ l := by
  obtain ⟨l₁, l₂, rfl, -⟩ := h
  exact List.mem_append_right l₁ List.mem_cons_self

variable [BEq K] [LawfulBEq K]

theorem lookup_reverse_eq_some_iff {k : K} {x : V} :
    (l.map fun a => (key a, v a)).reverse.lookup k = some x ↔
      ∃ a, IsLast key a l ∧ key a = k ∧ v a = x := by
  rw [List.lookup_eq_some_iff]
  constructor
  · rintro ⟨r₁, r₂, hsplit, hnone⟩
    have hsplit' : l.map (fun a => (key a, v a)) = r₂.reverse ++ (k, x) :: r₁.reverse := by
      rw [← List.reverse_reverse (List.map _ l), hsplit]
      simp
    obtain ⟨l₁, m, rfl, -, hm⟩ := List.map_eq_append_iff.mp hsplit'
    obtain ⟨a, l₂, rfl, ha, hl₂⟩ := List.map_eq_cons_iff.mp hm
    obtain ⟨rfl, rfl⟩ := Prod.mk.inj ha
    refine ⟨a, ⟨l₁, l₂, rfl, fun b hb => ?_⟩, rfl, rfl⟩
    have hmem : (key b, v b) ∈ r₁ := by
      rw [← List.mem_reverse, ← hl₂]
      exact List.mem_map_of_mem hb
    exact (bne_iff_ne.mp (hnone _ hmem)).symm
  · rintro ⟨a, ⟨l₁, l₂, rfl, hlast⟩, rfl, rfl⟩
    refine ⟨(l₂.map fun b => (key b, v b)).reverse, (l₁.map fun b => (key b, v b)).reverse,
      by simp, fun p hp => ?_⟩
    obtain ⟨b, hb, rfl⟩ := List.mem_map.mp (List.mem_reverse.mp hp)
    exact bne_iff_ne.mpr (hlast b hb).symm

theorem lookup_reverse_eq_none_iff {k : K} :
    (l.map fun a => (key a, v a)).reverse.lookup k = none ↔ ∀ a ∈ l, key a ≠ k := by
  rw [List.lookup_eq_none_iff]
  simp [eq_comm (a := k)]

theorem lookup_reverse_congr_iff :
    (∀ k, (l.map fun a => (key a, v a)).reverse.lookup k =
      (l.map fun a => (key a, w a)).reverse.lookup k) ↔ ∀ a, IsLast key a l → v a = w a := by
  constructor
  · intro h a ha
    have hv := lookup_reverse_eq_some_iff.mpr ⟨a, ha, rfl, (rfl : v a = v a)⟩
    rw [h (key a)] at hv
    have hw := lookup_reverse_eq_some_iff.mpr ⟨a, ha, rfl, (rfl : w a = w a)⟩
    exact Option.some.inj (hv.symm.trans hw)
  · intro h k
    rcases hk : (l.map fun a => (key a, v a)).reverse.lookup k with _ | x
    · rw [lookup_reverse_eq_none_iff] at hk
      exact (lookup_reverse_eq_none_iff.mpr hk).symm
    · obtain ⟨a, ha, hkey, hx⟩ := lookup_reverse_eq_some_iff.mp hk
      rw [h a ha] at hx
      exact (lookup_reverse_eq_some_iff.mpr ⟨a, ha, hkey, hx⟩).symm

end SemanticSearch.KeyedFold
