import Mathlib.Algebra.BigOperators.Group.Finset.Piecewise
import Mathlib.Data.List.ReduceOption
import SemanticSearch.FloatRounding
import SemanticSearch.SearchPage

namespace SemanticSearch

namespace Evaluation

open Json

/-- How numbers are rounded: in order, and the whole ones up to `whole` not at all. -/
structure Rounding where
  round : ℚ → ℚ
  whole : ℕ
  mono : ∀ x y, 0 ≤ x → x ≤ y → round x ≤ round y
  exact : ∀ n : ℕ, n ≤ whole → round n = n

/-- The `float` of Python. -/
def binary64 : Rounding where
  round := roundTo 53 (-1074)
  whole := 2 ^ 53 - 1
  mono _ _ h0 h := roundTo_mono (by norm_num) h0 h
  exact n h := by
    have hself : roundTo 53 (-1074) (n * 2 ^ (0 : ℤ)) = n * 2 ^ (0 : ℤ) :=
      roundTo_eq_self (by omega) (by omega)
    rwa [zpow_zero, mul_one] at hself

/-- `sum`, as a loop. -/
def Rounding.sum (R : Rounding) (vals : List ℚ) : ℚ := vals.foldl (fun s x => R.round (s + x)) 0

def avg (R : Rounding) (vals : List ℚ) : ℚ :=
  if vals = [] then 0 else R.round (R.sum vals / vals.length)

/-- `:.3f`, in thousandths. -/
def cell (x : ℚ) : ℤ := roundEven (1000 * x)

inductive Method
  | bm25
  | semantic
  | hybrid
  deriving DecidableEq

def methods : List Method := [.bm25, .semantic, .hybrid]

def Method.name : Method → List Char
  | .bm25 => ['b', 'm', '2', '5']
  | .semantic => ['s', 'e', 'm', 'a', 'n', 't', 'i', 'c']
  | .hybrid => ['h', 'y', 'b', 'r', 'i', 'd']

def mrrAtK (R : Rounding) (ranked relevant : List (List Char)) (k : ℕ) : ℚ :=
  match (ranked.take k).findIdx? (· ∈ relevant) with
  | some i => R.round (1 / (i + 1))
  | none => 0

def hitsAtK (ranked relevant : List (List Char)) (k : ℕ) : ℚ :=
  if (ranked.take k).any (· ∈ relevant) then 1 else 0

/-- The ids of one list of an answer; an answer without the list has none. -/
def rankList (result : Value) (m : Method) : Option (List (List Char)) :=
  match result with
  | .object _ =>
    match result.field m.name with
    | none => some []
    | some list => idsOf list
  | _ => none

structure Query where
  query : List Char
  relevant : List (List Char)
  type : Option (List Char)

def Query.qtype (q : Query) : List Char := q.type.getD ['?']

/-- What `query_api` comes to: the value of an answer, a `URLError`, or another exception. -/
inductive Reply
  | result (v : Value)
  | urlError
  | raised

structure Scores where
  mrr10 : List ℚ := []
  hits1 : List ℚ := []
  hits5 : List ℚ := []

def Scores.append (s : Scores) (mrr h1 h5 : ℚ) : Scores :=
  ⟨s.mrr10 ++ [mrr], s.hits1 ++ [h1], s.hits5 ++ [h5]⟩

structure Tally where
  scores : Method → Scores := fun _ => {}
  perType : List Char → Method → Scores := fun _ _ => {}
  failed : ℕ := 0

def scoreMethod (R : Rounding) (q : Query) (result : Value) (t : Tally) (m : Method) :
    Option Tally := do
  let ranked ← rankList result m
  let h1 := hitsAtK ranked q.relevant 1
  let h5 := hitsAtK ranked q.relevant 5
  let mrr := mrrAtK R ranked q.relevant 10
  return { t with
    scores := Function.update t.scores m ((t.scores m).append mrr h1 h5)
    perType := Function.update t.perType q.qtype
      (Function.update (t.perType q.qtype) m ((t.perType q.qtype m).append mrr h1 h5)) }

def evaluate (R : Rounding) (t : Tally) (p : Query × Reply) : Option Tally :=
  match p.2 with
  | .result v => methods.foldlM (scoreMethod R p.1 v) t
  | .urlError => some { t with failed := t.failed + 1 }
  | .raised => none

structure Cells where
  mrr10 : ℤ
  hits1 : ℤ
  hits5 : ℤ
  deriving DecidableEq

def row (R : Rounding) (scores : Method → Scores) (m : Method) : Cells :=
  ⟨cell (avg R (scores m).mrr10), cell (avg R (scores m).hits1), cell (avg R (scores m).hits5)⟩

structure Table where
  n : ℕ
  all : Method → Cells
  byType : List (List Char × (Method → Cells) × ℕ)

inductive Outcome
  | table (t : Table)
  | allFailed
  | raised

def inStrOrder (a b : List Char) : Bool := !(b.lex a fun c d => Nat.blt c.toNat d.toNat)

example : inStrOrder ['a'] ['a', 'b'] ∧ inStrOrder ['a', 'b'] ['b'] ∧ !inStrOrder ['b'] ['a'] := by
  decide

def types (ps : List (Query × Reply)) : List (List Char) :=
  (ps.map fun p => p.1.qtype).dedup.mergeSort inStrOrder

/-- `run`, for the queries with what became of each. -/
def run (R : Rounding) (ps : List (Query × Reply)) : Outcome :=
  match ps.foldlM (evaluate R) {} with
  | none => .raised
  | some t =>
    if t.failed = ps.length then .allFailed
    else .table
      { n := ps.length - t.failed
        all := row R t.scores
        byType := (types ps).map fun type =>
          (type, row R (t.perType type), (t.perType type .bm25).mrr10.length) }

/-- A query with the rankings it was answered with. -/
structure Answered where
  query : Query
  ranked : Method → List (List Char)

def rankings (v : Value) : Option (Method → List (List Char)) := do
  let bm25 ← rankList v .bm25
  let semantic ← rankList v .semantic
  let hybrid ← rankList v .hybrid
  return fun
    | .bm25 => bm25
    | .semantic => semantic
    | .hybrid => hybrid

/-- What a query adds to the evaluation: nothing if it failed. -/
def outcomeOf (p : Query × Reply) : Option (Option Answered) :=
  match p.2 with
  | .result v => (rankings v).map fun ranked => some ⟨p.1, ranked⟩
  | .urlError => some none
  | .raised => none

def scoresOf (R : Rounding) (as : List Answered) (m : Method) : Scores where
  mrr10 := as.map fun a => mrrAtK R (a.ranked m) a.query.relevant 10
  hits1 := as.map fun a => hitsAtK (a.ranked m) a.query.relevant 1
  hits5 := as.map fun a => hitsAtK (a.ranked m) a.query.relevant 5

def ofType (as : List Answered) (type : List Char) : List Answered :=
  as.filter fun a => a.query.qtype = type

def tallyOf (R : Rounding) (os : List (Option Answered)) : Tally where
  scores := scoresOf R os.reduceOption
  perType type := scoresOf R (ofType os.reduceOption type)
  failed := os.countP Option.isNone

def tableOf (R : Rounding) (types : List (List Char)) (as : List Answered) : Table where
  n := as.length
  all := row R (scoresOf R as)
  byType := types.map fun type => (type, row R (scoresOf R (ofType as type)), (ofType as type).length)

section

variable {R : Rounding} {as : List Answered} {os : List (Option Answered)} {ps : List (Query × Reply)}

theorem scoresOf_append (a : Answered) (m : Method) :
    scoresOf R (as ++ [a]) m = (scoresOf R as m).append (mrrAtK R (a.ranked m) a.query.relevant 10)
      (hitsAtK (a.ranked m) a.query.relevant 1) (hitsAtK (a.ranked m) a.query.relevant 5) := by
  simp [scoresOf, Scores.append]

theorem ofType_append (a : Answered) (type : List Char) :
    ofType (as ++ [a]) type =
      if a.query.qtype = type then ofType as type ++ [a] else ofType as type := by
  split_ifs with h <;> simp [ofType, h]

theorem foldlM_scoreMethod (q : Query) (v : Value) :
    methods.foldlM (scoreMethod R q v) (tallyOf R os) =
      (rankings v).map fun ranked => tallyOf R (os ++ [some ⟨q, ranked⟩]) := by
  unfold methods rankings
  simp only [List.foldlM_cons, List.foldlM_nil, scoreMethod]
  rcases rankList v .bm25 with _ | bm25
  · rfl
  rcases rankList v .semantic with _ | semantic
  · rfl
  rcases rankList v .hybrid with _ | hybrid
  · rfl
  simp only [Option.bind_eq_bind, Option.bind_some, Option.pure_def, Option.map_some,
    Option.some.injEq, tallyOf, Tally.mk.injEq]
  refine ⟨?_, ?_, by simp⟩
  · funext m
    rw [List.reduceOption_append, List.reduceOption_singleton, Option.toList_some, scoresOf_append]
    cases m <;> rfl
  · funext type m
    rw [List.reduceOption_append, List.reduceOption_singleton, Option.toList_some, ofType_append]
    by_cases htype : q.qtype = type
    · subst htype
      rw [if_pos rfl, scoresOf_append]
      cases m <;> simp
    · have hother : type ≠ q.qtype := Ne.symm htype
      simp [htype, hother]

theorem evaluate_tallyOf (os : List (Option Answered)) (p : Query × Reply) :
    evaluate R (tallyOf R os) p = (outcomeOf p).map fun o => tallyOf R (os ++ [o]) := by
  obtain ⟨q, v | _ | _⟩ := p
  · change methods.foldlM (scoreMethod R q v) (tallyOf R os) = _
    rw [foldlM_scoreMethod, outcomeOf, Option.map_map]
    rfl
  · change some { tallyOf R os with failed := (tallyOf R os).failed + 1 } = _
    simp [outcomeOf, tallyOf, List.reduceOption_append]
  · rfl

theorem foldlM_evaluate (os : List (Option Answered)) (ps : List (Query × Reply)) :
    ps.foldlM (evaluate R) (tallyOf R os) =
      (ps.mapM outcomeOf).map fun more => tallyOf R (os ++ more) := by
  induction ps generalizing os with
  | nil => simp
  | cons p ps ih =>
    rw [List.foldlM_cons, evaluate_tallyOf, List.mapM_cons]
    rcases outcomeOf p with _ | o
    · rfl
    · have hrest := ih (os ++ [o])
      simp only [Option.map_some, Option.bind_eq_bind, Option.bind_some] at hrest ⊢
      rw [hrest]
      rcases ps.mapM outcomeOf with _ | more
      · rfl
      · simp

theorem forall₂_of_mapM {α β : Type} {f : α → Option β} {l : List α} {l' : List β}
    (h : l.mapM f = some l') : List.Forall₂ (fun a b => f a = some b) l l' := by
  induction l generalizing l' with
  | nil =>
    obtain rfl : [] = l' := Option.some.inj h
    exact .nil
  | cons a l ih =>
    rw [List.mapM_cons] at h
    simp only [Option.bind_eq_bind, Option.bind_eq_some_iff, Option.pure_def,
      Option.some.injEq] at h
    obtain ⟨b, hb, bs, hbs, rfl⟩ := h
    exact .cons hb (ih hbs)

/-- The evaluation is the table of the queries that were answered. -/
theorem run_eq (R : Rounding) (ps : List (Query × Reply)) :
    run R ps = match ps.mapM outcomeOf with
      | none => .raised
      | some os =>
        if os.reduceOption = [] then .allFailed
        else .table (tableOf R (types ps) os.reduceOption) := by
  have hloop := foldlM_evaluate (R := R) [] ps
  change ps.foldlM (evaluate R) {} = _ at hloop
  rw [run, hloop]
  rcases hos : ps.mapM outcomeOf with _ | os
  · rfl
  have hlength : ps.length = os.length := (forall₂_of_mapM hos).length_eq
  have hcount := List.length_eq_reduceOption_length_add_filter_none (l := os)
  rw [← List.countP_eq_length_filter] at hcount
  simp only [Option.map_some, List.nil_append]
  have hall : (tallyOf R os).failed = ps.length ↔ os.reduceOption = [] := by
    rw [← List.length_eq_zero_iff]
    change os.countP Option.isNone = ps.length ↔ _
    omega
  simp only [hall]
  split_ifs with hnil
  · rfl
  · have hn : ps.length - (tallyOf R os).failed = os.reduceOption.length := by
      change ps.length - os.countP Option.isNone = _
      omega
    rw [hn]
    simp [tableOf, tallyOf, scoresOf]

end

section

variable {α : Type} {R : Rounding} {l : List α} {f g : α → ℚ}

theorem Rounding.round_zero (R : Rounding) : R.round 0 = 0 := by
  have h := R.exact 0 (Nat.zero_le _)
  rwa [Nat.cast_zero] at h

theorem Rounding.round_one (h : 1 ≤ R.whole) : R.round 1 = 1 := by
  have h := R.exact 1 h
  rwa [Nat.cast_one] at h

theorem Rounding.round_nonneg {x : ℚ} (h : 0 ≤ x) : 0 ≤ R.round x := by
  have hmono := R.mono 0 x (le_refl 0) h
  rwa [R.round_zero] at hmono

theorem foldl_round_le {a b : ℚ} (ha : 0 ≤ a) (hab : a ≤ b) (h : ∀ x ∈ l, 0 ≤ f x ∧ f x ≤ g x) :
    0 ≤ (l.map f).foldl (fun s x => R.round (s + x)) a ∧
      (l.map f).foldl (fun s x => R.round (s + x)) a ≤
        (l.map g).foldl (fun s x => R.round (s + x)) b := by
  induction l generalizing a b with
  | nil => exact ⟨ha, hab⟩
  | cons x l ih =>
    rw [List.forall_mem_cons] at h
    have hsum : 0 ≤ a + f x ∧ a + f x ≤ b + g x := ⟨add_nonneg ha h.1.1, add_le_add hab h.1.2⟩
    exact ih (R.round_nonneg hsum.1) (R.mono _ _ hsum.1 hsum.2) h.2

theorem sum_ones (l : List α) (h : l.length ≤ R.whole) : R.sum (l.map fun _ => 1) = l.length := by
  suffices hstart : ∀ n : ℕ, n + l.length ≤ R.whole →
      (l.map fun _ => (1 : ℚ)).foldl (fun s x => R.round (s + x)) n = (n + l.length : ℕ) by
    have h0 := hstart 0 (by omega)
    rwa [Nat.cast_zero, zero_add] at h0
  clear h
  intro n h
  induction l generalizing n with
  | nil => rfl
  | cons x l ih =>
    rw [List.length_cons] at h
    have hround : R.round (n + 1) = (n + 1 : ℕ) := by
      have hexact := R.exact (n + 1) (by omega)
      push_cast at hexact ⊢
      exact hexact
    rw [List.map_cons, List.foldl_cons, hround, ih (n + 1) (by omega), List.length_cons]
    congr 1
    omega

theorem avg_map (f : α → ℚ) : avg R (l.map f) = R.round (R.sum (l.map f) / l.length) := by
  cases l with
  | nil => simp [avg, R.round_zero]
  | cons x l => simp [avg]

theorem avg_le_avg (h : ∀ x ∈ l, 0 ≤ f x ∧ f x ≤ g x) :
    0 ≤ avg R (l.map f) ∧ avg R (l.map f) ≤ avg R (l.map g) := by
  have hsum := foldl_round_le (R := R) (le_refl 0) (le_refl 0) h
  have hlen : (0 : ℚ) ≤ l.length := Nat.cast_nonneg _
  rw [avg_map, avg_map]
  exact ⟨R.round_nonneg (div_nonneg hsum.1 hlen),
    R.mono _ _ (div_nonneg hsum.1 hlen) (div_le_div_of_nonneg_right hsum.2 hlen)⟩

theorem avg_le_one (hl : l.length ≤ R.whole) (h : ∀ x ∈ l, 0 ≤ f x ∧ f x ≤ 1) :
    avg R (l.map f) ≤ 1 := by
  have hones := (avg_le_avg (R := R) h).2
  apply hones.trans
  rw [avg_map, sum_ones l hl]
  cases l with
  | nil => simp [R.round_zero]
  | cons x l =>
    rw [div_self (Nat.cast_ne_zero.mpr (by simp)), Rounding.round_one]
    exact le_trans (by simp) hl

theorem cell_mono {x y : ℚ} (h : x ≤ y) : cell x ≤ cell y :=
  roundEven_mono (mul_le_mul_of_nonneg_left h (by norm_num))

theorem cell_zero : cell 0 = 0 := by
  have h := roundEven_intCast 0
  rwa [Int.cast_zero, ← mul_zero 1000] at h

theorem cell_one : cell 1 = 1000 := by
  have h := roundEven_intCast 1000
  rwa [Int.cast_ofNat, ← mul_one 1000] at h

end

/-- The averages lie between 0.000 and 1.000, and the one of the first hits is the smallest. -/
structure Cells.InOrder (c : Cells) : Prop where
  nonneg : 0 ≤ c.hits1
  hits1_mrr10 : c.hits1 ≤ c.mrr10
  hits1_hits5 : c.hits1 ≤ c.hits5
  mrr10_le : c.mrr10 ≤ 1000
  hits5_le : c.hits5 ≤ 1000

section

variable {R : Rounding} {ranked relevant : List (List Char)} {k : ℕ}

theorem hitsAtK_bounds (ranked relevant : List (List Char)) (k : ℕ) :
    0 ≤ hitsAtK ranked relevant k ∧ hitsAtK ranked relevant k ≤ 1 := by
  unfold hitsAtK
  split_ifs <;> norm_num

theorem hitsAtK_mono {k' : ℕ} (h : k ≤ k') :
    hitsAtK ranked relevant k ≤ hitsAtK ranked relevant k' := by
  by_cases hk : (ranked.take k).any (· ∈ relevant)
  · have hk' : (ranked.take k').any (· ∈ relevant) := by
      obtain ⟨id, hid, hrelevant⟩ := List.any_eq_true.mp hk
      exact List.any_eq_true.mpr ⟨id, (List.take_prefix_take_left h).subset hid, hrelevant⟩
    rw [hitsAtK, hitsAtK, if_pos hk, if_pos hk']
  · rw [hitsAtK, if_neg hk]
    exact (hitsAtK_bounds _ _ _).1

theorem mrrAtK_bounds (hR : 1 ≤ R.whole) :
    0 ≤ mrrAtK R ranked relevant k ∧ mrrAtK R ranked relevant k ≤ 1 := by
  unfold mrrAtK
  rcases (ranked.take k).findIdx? (· ∈ relevant) with _ | i
  · norm_num
  · have hpos : (0 : ℚ) ≤ 1 / (i + 1) := by positivity
    have hle : (1 : ℚ) / (i + 1) ≤ 1 := by
      rw [div_le_one (by positivity)]
      exact le_add_of_nonneg_left (Nat.cast_nonneg i)
    have hround := R.mono _ _ hpos hle
    rw [Rounding.round_one hR] at hround
    exact ⟨R.round_nonneg hpos, hround⟩

theorem hitsAtK_one_le_mrrAtK (hR : 1 ≤ R.whole) (hk : 0 < k) :
    hitsAtK ranked relevant 1 ≤ mrrAtK R ranked relevant k := by
  by_cases h : (ranked.take 1).any (· ∈ relevant)
  · have hone : mrrAtK R ranked relevant k = 1 := by
      obtain ⟨k, rfl⟩ := Nat.exists_eq_succ_of_ne_zero hk.ne'
      cases ranked with
      | nil => simp at h
      | cons id ranked =>
        have hid : id ∈ relevant := by simpa using h
        simp [mrrAtK, List.findIdx?_cons, hid, Rounding.round_one hR]
    rw [hone]
    exact (hitsAtK_bounds _ _ _).2
  · rw [hitsAtK, if_neg h]
    exact (mrrAtK_bounds hR).1

theorem inOrder_row (hR : 1 ≤ R.whole) {as : List Answered} (has : as.length ≤ R.whole)
    (m : Method) : (row R (scoresOf R as) m).InOrder := by
  have hhits : ∀ k, ∀ a ∈ as, 0 ≤ hitsAtK (a.ranked m) a.query.relevant k ∧
      hitsAtK (a.ranked m) a.query.relevant k ≤ 1 := fun k a _ => hitsAtK_bounds _ _ _
  have hmrr : ∀ a ∈ as, 0 ≤ mrrAtK R (a.ranked m) a.query.relevant 10 ∧
      mrrAtK R (a.ranked m) a.query.relevant 10 ≤ 1 := fun a _ => mrrAtK_bounds hR
  refine ⟨?_, ?_, ?_, ?_, ?_⟩
  · rw [← cell_zero]
    exact cell_mono (avg_le_avg (hhits 1)).1
  · exact cell_mono (avg_le_avg fun a ha =>
      ⟨(hhits 1 a ha).1, hitsAtK_one_le_mrrAtK hR (by norm_num)⟩).2
  · exact cell_mono (avg_le_avg fun a ha => ⟨(hhits 1 a ha).1, hitsAtK_mono (by norm_num)⟩).2
  · rw [← cell_one]
    exact cell_mono (avg_le_one has hmrr)
  · rw [← cell_one]
    exact cell_mono (avg_le_one has (hhits 5))

end

def Reply.isResult : Reply → Bool
  | .result _ => true
  | _ => false

section

variable {R : Rounding} {ps : List (Query × Reply)} {os : List (Option Answered)}

theorem length_filter_reduceOption (h : ps.mapM outcomeOf = some os) (P : Query → Bool) :
    (os.reduceOption.filter fun a => P a.query).length =
      ps.countP fun p => p.2.isResult && P p.1 := by
  have hall := forall₂_of_mapM h
  clear h
  induction hall with
  | nil => rfl
  | @cons p o ps os ho _ ih =>
    obtain ⟨q, v | _ | _⟩ := p
    · obtain ⟨ranked, -, rfl⟩ := Option.map_eq_some_iff.mp ho
      have hresult : (Reply.result v).isResult = true := rfl
      rw [List.reduceOption_cons_of_some, List.filter_cons, List.countP_cons, hresult,
        Bool.true_and, ← ih]
      split_ifs <;> rfl
    · obtain rfl : none = o := Option.some.inj ho
      have hresult : Reply.urlError.isResult = false := rfl
      rw [List.reduceOption_cons_of_none, ih, List.countP_cons, hresult, Bool.false_and]
      rfl
    · cases ho

theorem mem_types {p : Query × Reply} (h : p ∈ ps) : p.1.qtype ∈ types ps := by
  rw [types, List.mem_mergeSort, List.mem_dedup]
  exact List.mem_map_of_mem h

theorem nodup_types (ps : List (Query × Reply)) : (types ps).Nodup :=
  (List.mergeSort_perm _ _).nodup_iff.mpr (List.nodup_dedup _)

theorem sum_ofType {kinds : List (List Char)} (hkinds : kinds.Nodup) {as : List Answered}
    (h : ∀ a ∈ as, a.query.qtype ∈ kinds) :
    (kinds.map fun type => (ofType as type).length).sum = as.length := by
  induction as with
  | nil => simp [ofType]
  | cons a as ih =>
    rw [List.forall_mem_cons] at h
    have hstep : ∀ type, (ofType (a :: as) type).length =
        (if type = a.query.qtype then 1 else 0) + (ofType as type).length := by
      intro type
      by_cases htype : a.query.qtype = type
      · simp [ofType, htype, Nat.add_comm]
      · simp [ofType, htype, Ne.symm htype]
    have hone : (kinds.map fun type => if type = a.query.qtype then 1 else 0).sum = 1 := by
      rw [← List.sum_toFinset _ hkinds, Finset.sum_ite_eq', if_pos (List.mem_toFinset.mpr h.1)]
    simp only [hstep, List.sum_map_add]
    rw [hone, ih h.2, List.length_cons, Nat.add_comm]

theorem qtype_mem_types (h : ps.mapM outcomeOf = some os) :
    ∀ a ∈ os.reduceOption, a.query.qtype ∈ types ps := by
  have hnone : (os.reduceOption.filter fun a => decide (a.query.qtype ∉ types ps)) = [] := by
    rw [← List.length_eq_zero_iff,
      length_filter_reduceOption h fun q => decide (q.qtype ∉ types ps), List.countP_eq_zero]
    intro p hp
    simp [mem_types hp]
  intro a ha
  simpa using List.filter_eq_nil_iff.mp hnone a ha

/-- What is printed is the table of the queries that got a result: their number is the one in front,
that of a type the one of its queries, the types make up the whole, and every row is in order. -/
theorem run_table {t : Table} (hlen : ps.length ≤ R.whole) (h : run R ps = .table t) :
    0 < t.n ∧ t.n = (ps.countP fun p => p.2.isResult) ∧
      (t.byType.map fun r => r.2.2).sum = t.n ∧
      (∀ r ∈ t.byType, r.2.2 = ps.countP fun p => p.2.isResult && decide (p.1.qtype = r.1)) ∧
      (∀ m, (t.all m).InOrder) ∧ ∀ r ∈ t.byType, ∀ m, (r.2.1 m).InOrder := by
  rw [run_eq] at h
  rcases hos : ps.mapM outcomeOf with _ | os
  · simp [hos] at h
  simp only [hos] at h
  split_ifs at h with hnil
  obtain rfl := Outcome.table.inj h
  have hpos : 0 < os.reduceOption.length := List.length_pos_iff.mpr hnil
  have hall := length_filter_reduceOption hos fun _ => true
  simp only [List.filter_true, Bool.and_true] at hall
  have has : os.reduceOption.length ≤ R.whole := by
    have hle := List.reduceOption_length_le os
    have hlength := (forall₂_of_mapM hos).length_eq
    omega
  have hR : 1 ≤ R.whole := by omega
  refine ⟨hpos, hall, ?_, ?_, inOrder_row hR has, ?_⟩
  · rw [tableOf, List.map_map]
    exact sum_ofType (nodup_types ps) (qtype_mem_types hos)
  · intro r hr
    obtain ⟨type, -, rfl⟩ := List.mem_map.mp hr
    exact length_filter_reduceOption hos fun q => decide (q.qtype = type)
  · intro r hr m
    obtain ⟨type, -, rfl⟩ := List.mem_map.mp hr
    exact inOrder_row hR ((List.length_filter_le _ _).trans has) m

end

/-- A query that finds its document in the second place, and one that fails. -/
def twoQueries : List (Query × Reply) :=
  [(⟨['w', 'h', 'a', 'l', 'e'], [['a']], none⟩,
    .result (.object [(['b', 'm', '2', '5'],
      .array [.object [(['i', 'd'], .string ['b'])], .object [(['i', 'd'], .string ['a'])]])])),
    (⟨['r', 'e', 'd'], [['b']], none⟩, .urlError)]

example : (match run binary64 twoQueries with
    | .table t => some (t.n, t.all .bm25, t.all .semantic)
    | _ => none) = some (1, ⟨500, 0, 1000⟩, ⟨0, 0, 0⟩) := by decide +kernel

theorem run_table_twoQueries :
    ∃ t, run binary64 twoQueries = .table t ∧ t.n = 1 ∧ (t.byType.map fun r => r.2.2).sum = 1 ∧
      ∀ m, (t.all m).InOrder := by
  obtain ⟨t, ht⟩ : ∃ t, run binary64 twoQueries = .table t := by
    rw [run_eq]
    exact ⟨_, rfl⟩
  obtain ⟨-, hn, hsum, -, hall, -⟩ := run_table (by decide) ht
  have hcount : (twoQueries.countP fun p => p.2.isResult) = 1 := rfl
  rw [hcount] at hn
  exact ⟨t, ht, hn, hsum.trans hn, hall⟩

end Evaluation

end SemanticSearch
