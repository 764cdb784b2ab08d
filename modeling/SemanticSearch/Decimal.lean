import SemanticSearch.HeaderBlock

namespace SemanticSearch

theorem decimal_eq (n : ℕ) :
    decimal n = (Nat.toDigits 10 n).map fun c => UInt8.ofNat c.toNat := by
  rw [decimal, text, Nat.toString_eq_ofList_toDigits, String.toList_ofList]

theorem toNat_of_isDigit {c : Char} (hc : c.isDigit) :
    (UInt8.ofNat c.toNat).toNat = c.toNat ∧ 48 ≤ c.toNat ∧ c.toNat ≤ 57 := by
  have hrange : 48 ≤ c.toNat ∧ c.toNat ≤ 57 := by
    simpa [Char.isDigit, UInt32.le_iff_toNat_le] using hc
  refine ⟨?_, hrange⟩
  rw [UInt8.toNat_ofNat']
  omega

theorem isDigit_of_mem_decimal {n : ℕ} {c : Byte} (h : c ∈ decimal n) : isDigit c := by
  rw [decimal_eq, List.mem_map] at h
  obtain ⟨d, hd, rfl⟩ := h
  obtain ⟨hd', hlo, hhi⟩ := toNat_of_isDigit
    (Nat.isDigit_of_mem_toDigits (by decide) (by decide) hd)
  simp only [isDigit, Bool.and_eq_true, decide_eq_true_eq, UInt8.le_iff_toNat_le, hd']
  exact ⟨hlo, hhi⟩

theorem decimal_ne_nil (n : ℕ) : decimal n ≠ [] := by
  rw [decimal_eq]
  simp

theorem digitsValue_decimal (n : ℕ) : digitsValue (decimal n) = n := by
  have hfold : ∀ (ds : List Char) (a : ℕ), (∀ d ∈ ds, d.isDigit) →
      (ds.map fun c => UInt8.ofNat c.toNat).foldl (fun a c => a * 10 + (c.toNat - 48)) a =
        Nat.ofDigitChars 10 ds a := by
    intro ds a hds
    induction ds generalizing a with
    | nil => simp
    | cons d ds ih =>
      have hd := toNat_of_isDigit (hds d List.mem_cons_self)
      rw [List.map_cons, List.foldl_cons, ih _ fun e he => hds e (List.mem_cons_of_mem d he),
        Nat.ofDigitChars_cons, hd.1, Nat.mul_comm]
      rfl
  rw [digitsValue, decimal_eq,
    hfold _ _ fun d => Nat.isDigit_of_mem_toDigits (by decide) (by decide),
    Nat.ofDigitChars_ten_toDigits]

/-- Nothing that goes on as a number would. -/
def EndsNumber (t : Bytes) : Prop := ∀ c ∈ t.head?, isDigit c = false

theorem takeWhile_decimal (n : ℕ) {t : Bytes} (ht : EndsNumber t) :
    (decimal n ++ t).takeWhile isDigit = decimal n := by
  rw [List.takeWhile_append_of_pos fun c hc => isDigit_of_mem_decimal hc]
  cases t with
  | nil => simp
  | cons c t => rw [List.takeWhile_cons_of_neg (by simp [ht c rfl]), List.append_nil]

theorem numeral_decimal (n : ℕ) (t : Bytes) : numeral (decimal n ++ t) = (false, decimal n ++ t) := by
  obtain ⟨c, cs, hc⟩ := List.exists_cons_of_ne_nil (decimal_ne_nil n)
  rw [hc, List.cons_append]
  exact numeral_of_digit (isDigit_of_mem_decimal (hc ▸ List.mem_cons_self)) _

theorem stoul_decimal {n : ℕ} (hn : n < ulongBound) {t : Bytes} (ht : EndsNumber t) :
    stoul (decimal n ++ t) = .ok n := by
  rw [stoul, numeral_decimal]
  simp only [takeWhile_decimal n ht, digitsValue_decimal]
  rw [if_neg (decimal_ne_nil n), if_neg (by omega)]
  rfl

end SemanticSearch
