import Mathlib.Data.List.Nodup
import Mathlib.Order.Lattice
import Mathlib.Tactic.Common

namespace SemanticSearch

variable {K S : Type*}

structure Ranked [LE S] (l : List (K × S)) : Prop where
  nodup : (l.map Prod.fst).Nodup
  desc : l.Pairwise fun a b => b.2 ≤ a.2

/-- The number of keys in front of `key`, all of them when it is absent. -/
abbrev position [BEq K] (l : List (K × S)) (key : K) : ℕ := (l.map Prod.fst).idxOf key

theorem score_unique {l : List (K × S)} (h : (l.map Prod.fst).Nodup) {key : K} {s t : S}
    (hs : (key, s) ∈ l) (ht : (key, t) ∈ l) : s = t :=
  congrArg Prod.snd (List.inj_on_of_nodup_map h hs ht rfl)

variable [BEq K] [LawfulBEq K] {l l' : List (K × S)} {a b : K} {s : S}

theorem position_cons_self (p : K × S) (l : List (K × S)) : position (p :: l) p.1 = 0 :=
  List.idxOf_cons_eq _ rfl

theorem position_cons_ne {p : K × S} (h : p.1 ≠ a) (l : List (K × S)) :
    position (p :: l) a = position l a + 1 := List.idxOf_cons_ne _ h

variable [LinearOrder S]

theorem position_lt (h : l.Pairwise fun a b => b.2 ≤ a.2) (ha : (a, s) ∈ l)
    (hb : ∀ t, (b, t) ∈ l → t < s) : position l a < position l b := by
  have hab : a ≠ b := by
    rintro rfl
    exact lt_irrefl s (hb s ha)
  induction l with
  | nil => cases ha
  | cons p l ih =>
    rw [List.pairwise_cons] at h
    by_cases hpa : p.1 = a
    · subst hpa
      rw [position_cons_self, position_cons_ne hab]
      omega
    · have ha' : (a, s) ∈ l := (List.mem_cons.mp ha).resolve_left fun he => hpa (he ▸ rfl)
      have hpb : p.1 ≠ b := by
        rintro rfl
        exact absurd (h.1 _ ha') (not_le.mpr (hb p.2 List.mem_cons_self))
      rw [position_cons_ne hpa, position_cons_ne hpb]
      have := ih h.2 ha' fun t ht => hb t (List.mem_cons_of_mem p ht)
      omega

theorem position_eq_countP (h : Ranked l) (ha : (a, s) ∈ l)
    (hfirst : l.Pairwise fun p q => q.1 = a → q.2 < p.2) :
    position l a = l.countP fun p => s < p.2 := by
  induction l with
  | nil => cases ha
  | cons p l ih =>
    have hdesc := List.pairwise_cons.mp h.desc
    have hnodup := List.nodup_cons.mp h.nodup
    rw [List.pairwise_cons] at hfirst
    by_cases hpa : p.1 = a
    · subst hpa
      obtain rfl : p.2 = s := score_unique h.nodup List.mem_cons_self ha
      have hzero : ((p :: l).countP fun q => p.2 < q.2) = 0 := by
        rw [List.countP_eq_zero]
        intro q hq
        rcases List.mem_cons.mp hq with rfl | hq
        · simp
        · simpa using hdesc.1 q hq
      rw [hzero, position_cons_self]
    · have ha' : (a, s) ∈ l := (List.mem_cons.mp ha).resolve_left fun he => hpa (he ▸ rfl)
      have hsp : s < p.2 := hfirst.1 _ ha' rfl
      rw [position_cons_ne hpa, List.countP_cons_of_pos (by simpa using hsp),
        ih ⟨hnodup.2, hdesc.2⟩ ha' hfirst.2]

omit [BEq K] [LawfulBEq K] in
theorem Ranked.greater_in_front (h : Ranked l)
    (hunique : ∀ s, (a, s) ∈ l → ∀ b, (b, s) ∈ l → b = a) :
    l.Pairwise fun p q => q.1 = a → q.2 < p.2 := by
  have hkeys : l.Pairwise fun p q => p.1 ≠ q.1 := List.pairwise_map.mp h.nodup
  refine (h.desc.and hkeys).imp_of_mem ?_
  rintro ⟨b, t⟩ ⟨_, s⟩ hp hq ⟨hle, hne⟩ rfl
  refine lt_of_le_of_ne hle ?_
  rintro rfl
  exact hne (hunique s hq b hp)

theorem Ranked.position_eq_of_perm (h : Ranked l) (h' : Ranked l') (hp : l.Perm l')
    (hunique : ∀ s, (a, s) ∈ l → ∀ b, (b, s) ∈ l → b = a) : position l a = position l' a := by
  by_cases ha : a ∈ l.map Prod.fst
  · obtain ⟨⟨b, s⟩, hs, hb⟩ := List.mem_map.mp ha
    obtain rfl : a = b := hb.symm
    have hunique' : ∀ t, (a, t) ∈ l' → ∀ b, (b, t) ∈ l' → b = a := fun t ht b hb =>
      hunique t (hp.mem_iff.mpr ht) b (hp.mem_iff.mpr hb)
    rw [position_eq_countP h hs (h.greater_in_front hunique),
      position_eq_countP h' (hp.mem_iff.mp hs) (h'.greater_in_front hunique'), hp.countP_eq]
  · have ha' : a ∉ l'.map Prod.fst := fun hm => ha ((hp.map Prod.fst).mem_iff.mpr hm)
    rw [position, position, List.idxOf_of_notMem ha, List.idxOf_of_notMem ha', List.length_map,
      List.length_map, hp.length_eq]

end SemanticSearch
