import Mathlib.Data.List.TakeWhile
import Mathlib.Tactic.Common

namespace SemanticSearch.Json

inductive Value
  | null
  | bool (b : Bool)
  | number (literal : List Char)
  | string (s : List Char)
  | array (items : List Value)
  | object (members : List (List Char × Value))

/-- Takes a part of the text off its front. -/
abbrev Reader (α : Type) := List Char → Option (α × List Char)

def isBlank (c : Char) : Bool := c = ' ' || c = '\t' || c = '\n' || c = '\r'

def skipBlanks (s : List Char) : List Char := s.dropWhile isBlank

def isControl (c : Char) : Bool := c.toNat < 32

inductive Piece
  | char (c : Char)
  | unit (n : ℕ)

def hexDigitValue (c : Char) : Option ℕ :=
  if c.isDigit then some (c.toNat - 48)
  else if 'a' ≤ c ∧ c ≤ 'f' then some (c.toNat - 87)
  else if 'A' ≤ c ∧ c ≤ 'F' then some (c.toNat - 55)
  else none

def codeUnit (a b c d : Char) : Option ℕ := do
  return ((16 * (← hexDigitValue a) + (← hexDigitValue b)) * 16 + (← hexDigitValue c)) * 16 +
    (← hexDigitValue d)

def escapedChar : Char → Option Char
  | '"' => some '"'
  | '\\' => some '\\'
  | '/' => some '/'
  | 'b' => some '\x08'
  | 'f' => some '\x0c'
  | 'n' => some '\n'
  | 'r' => some '\r'
  | 't' => some '\t'
  | _ => none

def readPieces : Reader (List Piece)
  | [] => none
  | c :: s =>
    if c = '"' then some ([], s)
    else if c = '\\' then
      match s with
      | [] => none
      | e :: s =>
        if e = 'u' then
          match s with
          | h1 :: h2 :: h3 :: h4 :: s =>
            (codeUnit h1 h2 h3 h4).bind fun n => (readPieces s).map fun p => (.unit n :: p.1, p.2)
          | _ => none
        else (escapedChar e).bind fun c => (readPieces s).map fun p => (.char c :: p.1, p.2)
    else if isControl c then none
    else (readPieces s).map fun p => (.char c :: p.1, p.2)

def joinPieces : List Piece → Option (List Char)
  | [] => some []
  | .char c :: ps => (joinPieces ps).map (c :: ·)
  | .unit n :: ps =>
    if n < 0xD800 ∨ 0xE000 ≤ n then (joinPieces ps).map (Char.ofNat n :: ·)
    else match ps with
      | .unit low :: ps =>
        if n < 0xDC00 ∧ 0xDC00 ≤ low ∧ low < 0xE000 then
          (joinPieces ps).map (Char.ofNat (0x10000 + (n - 0xD800) * 0x400 + (low - 0xDC00)) :: ·)
        else none
      | _ => none

def readString : Reader (List Char) := fun s =>
  (readPieces s).bind fun p => (joinPieces p.1).map fun cs => (cs, p.2)

def readDigits : Reader (List Char) := fun s =>
  if s.takeWhile Char.isDigit = [] then none
  else some (s.takeWhile Char.isDigit, s.dropWhile Char.isDigit)

def readMinus : List Char → List Char × List Char
  | '-' :: s => (['-'], s)
  | s => ([], s)

def readSign : List Char → List Char × List Char
  | '+' :: s => (['+'], s)
  | s => readMinus s

def readInt : Reader (List Char)
  | '0' :: s => some (['0'], s)
  | s => readDigits s

def readFrac : Reader (List Char)
  | '.' :: s => (readDigits s).map fun p => ('.' :: p.1, p.2)
  | s => some ([], s)

def readExp : Reader (List Char)
  | [] => some ([], [])
  | c :: s =>
    if c = 'e' ∨ c = 'E' then
      (readDigits (readSign s).2).map fun p => (c :: (readSign s).1 ++ p.1, p.2)
    else some ([], c :: s)

def readNumber : Reader (List Char) := fun s => do
  let (minus, s) := readMinus s
  let (int, s) ← readInt s
  let (frac, s) ← readFrac s
  let (exp, s) ← readExp s
  return (minus ++ int ++ frac ++ exp, s)

variable {α : Type}

/-- Items with commas between them up to the closing bracket, at least one and at most `n`. -/
def readItems (item : Reader α) (close : Char) : ℕ → Reader (List α)
  | 0, _ => none
  | n + 1, s =>
    (item s).bind fun p =>
      match skipBlanks p.2 with
      | [] => none
      | c :: s =>
        if c = close then some ([p.1], s)
        else if c = ',' then (readItems item close n s).map fun q => (p.1 :: q.1, q.2)
        else none

/-- An array or an object behind its opening bracket. -/
def readList (item : Reader α) (close : Char) : Reader (List α) := fun s =>
  if (skipBlanks s).head? = some close then some ([], (skipBlanks s).tail)
  else readItems item close s.length s

def readMember (value : Reader Value) : Reader (List Char × Value) := fun s =>
  match skipBlanks s with
  | '"' :: s =>
    (readString s).bind fun key =>
      match skipBlanks key.2 with
      | ':' :: s => (value s).map fun v => ((key.1, v.1), v.2)
      | _ => none
  | _ => none

/-- A value that nests less than `n` deep. -/
def readValue : ℕ → Reader Value
  | 0, _ => none
  | n + 1, s =>
    match skipBlanks s with
    | '"' :: s => (readString s).map fun p => (.string p.1, p.2)
    | '[' :: s => (readList (readValue n) ']' s).map fun p => (.array p.1, p.2)
    | '\x7b' :: s =>
      (readList (readMember (readValue n)) '\x7d' s).map fun p => (.object p.1, p.2)
    | 'n' :: 'u' :: 'l' :: 'l' :: s => some (.null, s)
    | 't' :: 'r' :: 'u' :: 'e' :: s => some (.bool true, s)
    | 'f' :: 'a' :: 'l' :: 's' :: 'e' :: s => some (.bool false, s)
    | s => (readNumber s).map fun p => (.number p.1, p.2)

/-- The value of a JSON text. No text nests deeper than it is long. -/
def parse (s : List Char) : Option Value :=
  (readValue (s.length + 1) s).bind fun p => if skipBlanks p.2 = [] then some p.1 else none

/-- The value of a member; the last one of a name counts. -/
def Value.field (name : List Char) : Value → Option Value
  | .object members => members.reverse.lookup name
  | _ => none

def Value.asString : Value → Option (List Char)
  | .string s => some s
  | _ => none

def Value.asArray : Value → Option (List Value)
  | .array items => some items
  | _ => none

theorem skipBlanks_cons {c : Char} (h : isBlank c = false) (s : List Char) :
    skipBlanks (c :: s) = c :: s := by
  rw [skipBlanks, List.dropWhile_cons_of_neg (by simp [h])]

@[simp]
theorem readPieces_quote (s : List Char) : readPieces ('"' :: s) = some ([], s) := by
  rw [readPieces.eq_def]
  rfl

theorem readPieces_escape {e c : Char} (h : escapedChar e = some c) (s : List Char) :
    readPieces ('\\' :: e :: s) = (readPieces s).map fun p => (.char c :: p.1, p.2) := by
  have hu : e ≠ 'u' := by
    rintro rfl
    cases h
  rw [readPieces.eq_def]
  simp [hu, h]

theorem readPieces_plain {c : Char} (h : c ≠ '"' ∧ c ≠ '\\') (hc : isControl c = false)
    (s : List Char) : readPieces (c :: s) = (readPieces s).map fun p => (.char c :: p.1, p.2) := by
  rw [readPieces.eq_def]
  simp [h.1, h.2, hc]

theorem readPieces_control {c : Char} (h : isControl c) (s : List Char) :
    readPieces (c :: s) = none := by
  have hq : c ≠ '"' := by
    rintro rfl
    exact absurd h (by decide)
  have hb : c ≠ '\\' := by
    rintro rfl
    exact absurd h (by decide)
  rw [readPieces.eq_def]
  simp [hq, hb, h]

theorem joinPieces_map_char (cs : List Char) : joinPieces (cs.map .char) = some cs := by
  induction cs with
  | nil => rfl
  | cons c cs ih => rw [List.map_cons, joinPieces, ih, Option.map_some]

def IsDigits (ds : List Char) : Prop := ds ≠ [] ∧ ∀ c ∈ ds, c.isDigit

def IsInt (ds : List Char) : Prop := IsDigits ds ∧ (ds.head? = some '0' → ds = ['0'])

def IsFrac (t : List Char) : Prop := t = [] ∨ ∃ ds, IsDigits ds ∧ t = '.' :: ds

def IsExp (t : List Char) : Prop :=
  t = [] ∨ ∃ sign ds, (sign = '+' ∨ sign = '-') ∧ IsDigits ds ∧ t = 'e' :: sign :: ds

/-- Literals of numbers, with a sign in every exponent. -/
def IsNumber (lit : List Char) : Prop :=
  ∃ minus int frac exp, (minus = [] ∨ minus = ['-']) ∧ IsInt int ∧ IsFrac frac ∧ IsExp exp ∧
    lit = minus ++ int ++ frac ++ exp

def NoDigit (rest : List Char) : Prop := ∃ c s, rest = c :: s ∧ c.isDigit = false

def EndsNumber (rest : List Char) : Prop :=
  ∃ c s, rest = c :: s ∧ c.isDigit = false ∧ c ≠ '.' ∧ c ≠ 'e' ∧ c ≠ 'E'

variable {ds lit rest : List Char}

theorem EndsNumber.noDigit (h : EndsNumber rest) : NoDigit rest := by
  obtain ⟨c, s, hrest, hc, -⟩ := h
  exact ⟨c, s, hrest, hc⟩

theorem readDigits_append (h : IsDigits ds) (hrest : NoDigit rest) :
    readDigits (ds ++ rest) = some (ds, rest) := by
  obtain ⟨c, s, rfl, hc⟩ := hrest
  have htake : (ds ++ c :: s).takeWhile Char.isDigit = ds := by
    rw [List.takeWhile_append_of_pos h.2, List.takeWhile_cons_of_neg (by simp [hc]),
      List.append_nil]
  have hdrop : (ds ++ c :: s).dropWhile Char.isDigit = c :: s := by
    rw [List.dropWhile_append_of_pos h.2, List.dropWhile_cons_of_neg (by simp [hc])]
  rw [readDigits, htake, hdrop, if_neg h.1]

theorem readInt_append (h : IsInt ds) (hrest : NoDigit rest) :
    readInt (ds ++ rest) = some (ds, rest) := by
  obtain ⟨d, ds, rfl⟩ := List.exists_cons_of_ne_nil h.1.1
  by_cases hd : d = '0'
  · subst hd
    obtain rfl : ds = [] := by simpa using h.2 rfl
    rfl
  · have hfall : readInt (d :: ds ++ rest) = readDigits (d :: ds ++ rest) := by
      unfold readInt
      split
      · rename_i he
        exact absurd (List.cons.inj he).1 hd
      · rfl
    rw [hfall, readDigits_append h.1 hrest]

theorem readFrac_append {t : List Char} (h : IsFrac t) (hrest : NoDigit rest)
    (hdot : rest.head? ≠ some '.') : readFrac (t ++ rest) = some (t, rest) := by
  rcases h with rfl | ⟨ds, hds, rfl⟩
  · unfold readFrac
    split
    · rename_i he
      rw [List.nil_append] at he
      simp [he] at hdot
    · rfl
  · rw [List.cons_append, readFrac, readDigits_append hds hrest]
    rfl

theorem readExp_append {t : List Char} (h : IsExp t) (hrest : EndsNumber rest) :
    readExp (t ++ rest) = some (t, rest) := by
  rcases h with rfl | ⟨sign, ds, hsign, hds, rfl⟩
  · obtain ⟨c, s, rfl, -, -, he, hE⟩ := hrest
    rw [List.nil_append, readExp, if_neg (by simp [he, hE])]
  · have hread : readSign (sign :: (ds ++ rest)) = ([sign], ds ++ rest) := by
      rcases hsign with rfl | rfl <;> rfl
    rw [List.cons_append, List.cons_append, readExp, if_pos (Or.inl rfl), hread,
      readDigits_append hds hrest.noDigit]
    rfl

theorem IsInt.exists_cons (h : IsInt ds) : ∃ d t, ds = d :: t ∧ d.isDigit := by
  obtain ⟨d, t, rfl⟩ := List.exists_cons_of_ne_nil h.1.1
  exact ⟨d, t, rfl, h.1.2 d List.mem_cons_self⟩

theorem IsNumber.readNumber_append (h : IsNumber lit) (hrest : EndsNumber rest) :
    readNumber (lit ++ rest) = some (lit, rest) := by
  obtain ⟨minus, int, frac, exp, hm, hi, hf, he, rfl⟩ := h
  have hexp : NoDigit (exp ++ rest) ∧ (exp ++ rest).head? ≠ some '.' := by
    rcases he with rfl | ⟨sign, ds, -, -, rfl⟩
    · obtain ⟨c, s, rfl, hc, hdot, -⟩ := hrest
      exact ⟨⟨c, s, rfl, hc⟩, by simpa using hdot⟩
    · exact ⟨⟨'e', _, rfl, by decide⟩, by simp⟩
  have hfrac : NoDigit (frac ++ (exp ++ rest)) := by
    rcases hf with rfl | ⟨ds, -, rfl⟩
    · exact hexp.1
    · exact ⟨'.', _, rfl, by decide⟩
  have hminus : readMinus (minus ++ (int ++ (frac ++ (exp ++ rest)))) =
      (minus, int ++ (frac ++ (exp ++ rest))) := by
    rcases hm with rfl | rfl
    · obtain ⟨d, t, rfl, hd⟩ := hi.exists_cons
      unfold readMinus
      split
      · rename_i he
        rw [List.nil_append, List.cons_append, List.cons.injEq] at he
        rw [he.1] at hd
        cases hd
      · rfl
    · rfl
  rw [List.append_assoc, List.append_assoc, List.append_assoc, readNumber, hminus]
  simp only [readInt_append hi hfrac, readFrac_append hf hexp.1 hexp.2,
    readExp_append he hrest, Option.bind_eq_bind, Option.bind_some]
  simp

def delimiters : List Char := [',', ']', '\x7d']

/-- In front of a delimiter the reader takes `t` and gives `r`. -/
def ReadsAs (item : Reader α) (t : List Char) (r : Option α) : Prop :=
  ∀ c ∈ delimiters, ∀ rest, item (t ++ c :: rest) = r.map fun a => (a, c :: rest)

/-- No blank and no delimiter comes first. -/
def Opens (t : List Char) : Prop := ∃ c s, t = c :: s ∧ isBlank c = false ∧ c ∉ delimiters

variable {item : Reader α} {close : Char}

theorem endsNumber_delimiter {c : Char} (hc : c ∈ delimiters) (rest : List Char) :
    EndsNumber (c :: rest) := by
  simp only [delimiters, List.mem_cons, List.not_mem_nil, or_false] at hc
  rcases hc with rfl | rfl | rfl <;> exact ⟨_, rest, rfl, by decide⟩

theorem isBlank_delimiter {c : Char} (hc : c ∈ delimiters) : isBlank c = false := by
  simp only [delimiters, List.mem_cons, List.not_mem_nil, or_false] at hc
  rcases hc with rfl | rfl | rfl <;> decide

theorem readItems_intercalate (hclose : close ∈ delimiters) (hcomma : close ≠ ',')
    {ts : List (List Char × Option α)} (h : ∀ p ∈ ts, ReadsAs item p.1 p.2) (h0 : ts ≠ [])
    {n : ℕ} (hn : ts.length ≤ n) (rest : List Char) :
    readItems item close n ([','].intercalate (ts.map Prod.fst) ++ close :: rest) =
      (ts.mapM Prod.snd).map fun as => (as, rest) := by
  induction ts generalizing n with
  | nil => exact absurd rfl h0
  | cons p ts ih =>
    obtain ⟨t, r⟩ := p
    obtain ⟨n, rfl⟩ : ∃ m, n = m + 1 := ⟨n - 1, by simp only [List.length_cons] at hn; omega⟩
    rw [List.forall_mem_cons] at h
    rw [readItems]
    by_cases hts : ts = []
    · subst hts
      rw [List.map_cons, List.map_nil, List.intercalate_singleton, h.1 close hclose]
      rcases r with _ | a
      · simp
      · simp [skipBlanks_cons (isBlank_delimiter hclose)]
    · have htail := ih h.2 hts (Nat.le_of_succ_le_succ hn)
      have hskip : ∀ s, skipBlanks (',' :: s) = ',' :: s := skipBlanks_cons (by decide)
      rw [List.map_cons, List.intercalate_cons_of_ne_nil (by simpa using hts), List.append_assoc,
        List.append_assoc, List.singleton_append, h.1 ',' (by decide)]
      rcases r with _ | a
      · simp
      · simp only [Option.map_some, Option.bind_some, hskip, Ne.symm hcomma, if_false, if_true,
          htail, List.mapM_cons, Option.bind_eq_bind]
        rcases ts.mapM Prod.snd with _ | as <;> rfl

theorem length_le_intercalate {ts : List (List Char)} (h : ∀ t ∈ ts, Opens t) :
    ts.length ≤ ([','].intercalate ts).length := by
  induction ts with
  | nil => exact Nat.zero_le _
  | cons t ts ih =>
    rw [List.forall_mem_cons] at h
    obtain ⟨c, s, rfl, -, -⟩ := h.1
    by_cases hts : ts = []
    · simp [hts]
    · have := ih h.2
      rw [List.intercalate_cons_of_ne_nil hts]
      simp only [List.length_append, List.length_cons]
      omega

theorem readList_intercalate (hclose : close ∈ delimiters) (hcomma : close ≠ ',')
    {ts : List (List Char × Option α)} (h : ∀ p ∈ ts, ReadsAs item p.1 p.2)
    (hopen : ∀ p ∈ ts, Opens p.1) (rest : List Char) :
    readList item close ([','].intercalate (ts.map Prod.fst) ++ close :: rest) =
      (ts.mapM Prod.snd).map fun as => (as, rest) := by
  rw [readList]
  by_cases hts : ts = []
  · subst hts
    simp [skipBlanks_cons (isBlank_delimiter hclose)]
  · have hopen' : ∀ t ∈ ts.map Prod.fst, Opens t := by simpa using hopen
    have hlen := length_le_intercalate hopen'
    rw [List.length_map] at hlen
    have hhead : ∃ c s, [','].intercalate (ts.map Prod.fst) ++ close :: rest = c :: s ∧
        isBlank c = false ∧ c ≠ close := by
      obtain ⟨p, ts, rfl⟩ := List.exists_cons_of_ne_nil hts
      obtain ⟨c, s, hp, hc, hd⟩ := hopen p List.mem_cons_self
      have hne : c ≠ close := by
        rintro rfl
        exact hd hclose
      rw [List.map_cons, hp]
      by_cases h0 : ts = []
      · exact ⟨c, s ++ close :: rest, by simp [h0], hc, hne⟩
      · rw [List.intercalate_cons_of_ne_nil (by simpa using h0)]
        exact ⟨c, _, rfl, hc, hne⟩
    obtain ⟨c, s, hs, hc, hne⟩ := hhead
    have hbranch : (skipBlanks (c :: s)).head? ≠ some close := by
      rw [skipBlanks_cons hc]
      simpa using hne
    rw [hs, if_neg hbranch, ← hs]
    apply readItems_intercalate hclose hcomma h hts
    rw [List.length_append]
    omega

/-- In front of its closing quote the text `t` of a string stands for `r`. -/
def StandsFor (t : List Char) (r : Option (List Char)) : Prop :=
  ∀ rest, readString (t ++ '"' :: rest) = r.map fun cs => (cs, rest)

/-- A character that stands for itself in a string. -/
def IsPlain (c : Char) : Prop := (c ≠ '"' ∧ c ≠ '\\') ∧ isControl c = false

instance (c : Char) : Decidable (IsPlain c) := inferInstanceAs (Decidable (_ ∧ _))

theorem isPlain_of_all {key : List Char} (h : key.all fun c => decide (IsPlain c)) :
    ∀ c ∈ key, IsPlain c := fun c hc => of_decide_eq_true (List.all_eq_true.mp h c hc)

theorem standsFor_of_isPlain {key : List Char} (h : ∀ c ∈ key, IsPlain c) :
    StandsFor key (some key) := by
  intro rest
  have hpieces : readPieces (key ++ '"' :: rest) = some (key.map .char, rest) := by
    induction key with
    | nil => exact readPieces_quote rest
    | cons c key ih =>
      rw [List.forall_mem_cons] at h
      rw [List.cons_append, readPieces_plain h.1.1 h.1.2, ih h.2]
      rfl
  rw [readString, hpieces, Option.bind_some, joinPieces_map_char]

/-- A reader of values that nest less than `d` deep, or of deeper ones, reads `t` as `r`. -/
def Reads (d : ℕ) (t : List Char) (r : Option Value) : Prop :=
  ∀ n, d ≤ n → ReadsAs (readValue n) t r

def quoted (t : List Char) : List Char := '"' :: (t ++ ['"'])

def memberText (key t : List Char) : List Char := quoted key ++ ':' :: t

def arrayText (ts : List (List Char)) : List Char := '[' :: ([','].intercalate ts ++ [']'])

def objectText (ts : List (List Char)) : List Char :=
  '\x7b' :: ([','].intercalate ts ++ ['\x7d'])

variable {d : ℕ} {t key : List Char} {r : Option Value}

theorem opens_quote (t : List Char) : Opens ('"' :: t) := ⟨'"', t, rfl, by decide, by decide⟩

theorem reads_string {cs : Option (List Char)} (h : StandsFor t cs) :
    Reads 1 (quoted t) (cs.map .string) := by
  intro n hn c _ rest
  obtain ⟨n, rfl⟩ : ∃ m, n = m + 1 := ⟨n - 1, by omega⟩
  have hread := h (c :: rest)
  rw [quoted, List.cons_append, List.append_assoc, List.singleton_append, readValue,
    skipBlanks_cons (by decide)]
  simp only [hread, Option.map_map]
  rfl

theorem readValue_number {n : ℕ} {c : Char} (hc : c = '-' ∨ c.isDigit) (s : List Char) :
    readValue (n + 1) (c :: s) = (readNumber (c :: s)).map fun p => (.number p.1, p.2) := by
  have hblank : isBlank c = false := by
    rcases hc with rfl | hc
    · decide
    · by_contra hb
      simp only [isBlank, Bool.not_eq_false, Bool.or_eq_true, decide_eq_true_eq] at hb
      rcases hb with ((rfl | rfl) | rfl) | rfl <;> exact absurd hc (by decide)
  rw [readValue, skipBlanks_cons hblank]
  split
  case h_7 => rfl
  all_goals
    rename_i he
    obtain ⟨rfl, -⟩ := List.cons.inj he
    rcases hc with hc | hc <;> exact absurd hc (by decide)

theorem reads_number (h : IsNumber t) : Reads 1 t (some (.number t)) := by
  intro n hn c hc rest
  obtain ⟨n, rfl⟩ : ∃ m, n = m + 1 := ⟨n - 1, by omega⟩
  have hread := h.readNumber_append (endsNumber_delimiter hc rest)
  obtain ⟨minus, int, frac, exp, hm, hi, -, -, rfl⟩ := h
  obtain ⟨x, s, rfl, hx⟩ := hi.exists_cons
  have hcons : ∃ y s', minus ++ x :: s ++ frac ++ exp ++ c :: rest = y :: s' ∧
      (y = '-' ∨ y.isDigit) := by
    rcases hm with rfl | rfl
    · exact ⟨x, _, rfl, Or.inr hx⟩
    · exact ⟨'-', _, rfl, Or.inl rfl⟩
  obtain ⟨y, s', hs, hy⟩ := hcons
  rw [hs] at hread ⊢
  rw [readValue_number hy, hread]
  rfl

theorem readsAs_member (hkey : ∀ c ∈ key, IsPlain c) {n : ℕ} (h : ReadsAs (readValue n) t r) :
    ReadsAs (readMember (readValue n)) (memberText key t) (r.map fun v => (key, v)) := by
  intro c hc rest
  have hread := standsFor_of_isPlain hkey (':' :: (t ++ c :: rest))
  have hvalue := h c hc rest
  have htext : memberText key t ++ c :: rest = '"' :: (key ++ '"' :: ':' :: (t ++ c :: rest)) := by
    simp [memberText, quoted]
  rw [htext, readMember, skipBlanks_cons (by decide)]
  have hcolon : skipBlanks (':' :: (t ++ c :: rest)) = ':' :: (t ++ c :: rest) :=
    skipBlanks_cons (by decide) _
  simp only [hread, Option.map_some, Option.bind_some, hcolon, hvalue, Option.map_map]
  rfl

theorem reads_array {ts : List (List Char × Option Value)} (h : ∀ p ∈ ts, Reads d p.1 p.2)
    (hopen : ∀ p ∈ ts, Opens p.1) :
    Reads (d + 1) (arrayText (ts.map Prod.fst)) ((ts.mapM Prod.snd).map .array) := by
  intro n hn c _ rest
  obtain ⟨n, rfl⟩ : ∃ m, n = m + 1 := ⟨n - 1, by omega⟩
  have hitems : ∀ p ∈ ts, ReadsAs (readValue n) p.1 p.2 := fun p hp => h p hp n (by omega)
  have hlist := readList_intercalate (by decide : ']' ∈ delimiters) (by decide) hitems hopen
    (c :: rest)
  rw [arrayText, List.cons_append, List.append_assoc, List.singleton_append, readValue,
    skipBlanks_cons (by decide)]
  simp only [hlist, Option.map_map]
  rfl

/-- The members of an object: a name, the text of a value and how it is read. -/
abbrev Members := List (List Char × List Char × Option Value)

def Members.texts (ms : Members) : List (List Char) := ms.map fun m => memberText m.1 m.2.1

def Members.values (ms : Members) : Option (List (List Char × Value)) :=
  ms.mapM fun m => m.2.2.map fun v => (m.1, v)

theorem readValue_object {ms : Members} (hkey : ∀ m ∈ ms, ∀ c ∈ m.1, IsPlain c) {n : ℕ}
    (h : ∀ m ∈ ms, ReadsAs (readValue n) m.2.1 m.2.2) (rest : List Char) :
    readValue (n + 1) (objectText ms.texts ++ rest) =
      ms.values.map fun vs => (.object vs, rest) := by
  have hmember : ∀ p ∈ ms.map fun m => (memberText m.1 m.2.1, m.2.2.map fun v => (m.1, v)),
      ReadsAs (readMember (readValue n)) p.1 p.2 := by
    intro p hp
    obtain ⟨m, hm, rfl⟩ := List.mem_map.mp hp
    exact readsAs_member (hkey m hm) (h m hm)
  have hopen : ∀ p ∈ ms.map fun m => (memberText m.1 m.2.1, m.2.2.map fun v => (m.1, v)),
      Opens p.1 := by
    intro p hp
    obtain ⟨m, hm, rfl⟩ := List.mem_map.mp hp
    exact opens_quote _
  have hlist := readList_intercalate (by decide : '\x7d' ∈ delimiters) (by decide) hmember hopen
    rest
  rw [List.map_map, List.mapM_map] at hlist
  rw [objectText, List.cons_append, List.append_assoc, List.singleton_append, readValue,
    skipBlanks_cons (by decide)]
  have htexts : ms.texts =
      ms.map (Prod.fst ∘ fun m => (memberText m.1 m.2.1, m.2.2.map fun v => (m.1, v))) := rfl
  simp only [htexts, hlist, Option.map_map]
  rfl

theorem reads_object {ms : Members} (hkey : ∀ m ∈ ms, ∀ c ∈ m.1, IsPlain c)
    (h : ∀ m ∈ ms, Reads d m.2.1 m.2.2) :
    Reads (d + 1) (objectText ms.texts) (ms.values.map .object) := by
  intro n hn c _ rest
  obtain ⟨n, rfl⟩ : ∃ m, n = m + 1 := ⟨n - 1, by omega⟩
  rw [readValue_object hkey fun m hm => h m hm n (by omega), Option.map_map]
  rfl

theorem parse_object {ms : Members} (hkey : ∀ m ∈ ms, ∀ c ∈ m.1, IsPlain c)
    (h : ∀ m ∈ ms, Reads d m.2.1 m.2.2) (hd : d ≤ (objectText ms.texts).length) :
    parse (objectText ms.texts) = ms.values.map .object := by
  have hread := readValue_object hkey (fun m hm => h m hm _ hd) []
  rw [List.append_nil] at hread
  rw [parse, hread]
  rcases ms.values with _ | vs <;> rfl

end SemanticSearch.Json
