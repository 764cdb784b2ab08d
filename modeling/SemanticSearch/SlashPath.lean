import SemanticSearch.Bytes

namespace SemanticSearch

abbrev RealPath := List Bytes

instance : Std.TransOrd RealPath := inferInstance
instance : Std.LawfulEqOrd RealPath := inferInstance

def slash : Byte := 47
def dot : Bytes := [46]
def dotdot : Bytes := [46, 46]

/-- The non-empty pieces between the slashes of `p`. -/
def names (p : Bytes) : List Bytes := (p.splitOn slash).filter (· ≠ [])

/-- What a lookup of `p` goes through: a final slash asks for a directory, as `/.` does. -/
def components (p : Bytes) : List Bytes :=
  names p ++ if p.getLast? = some slash then [dot] else []

def isAbsolute (p : Bytes) : Bool := p.head? = some slash

def joined (q : RealPath) : Bytes := q.flatMap (slash :: ·)

def pathString (q : RealPath) : Bytes := if q = [] then [slash] else joined q

/-- `root / a / b`: `operator/` adds a separator unless `root` ends in one. -/
def underRoot (root : Bytes) (q : RealPath) : Bytes :=
  if root.getLast? = some slash then root ++ (joined q).tail else root ++ joined q

/-- A name a lookup can ask for and a path text can spell. -/
def PlainName (n : Bytes) : Prop := n ≠ [] ∧ slash ∉ n

@[simp] theorem names_nil : names [] = [] := by simp [names]

theorem names_append_slash (a b : Bytes) : names (a ++ slash :: b) = names a ++ names b := by
  simp [names, List.splitOn_append_cons_self]

theorem names_slash_cons (p : Bytes) : names (slash :: p) = names p := by
  simpa using names_append_slash [] p

theorem names_of_plain {n : Bytes} (h : PlainName n) : names n = [n] := by
  simp [names, List.splitOn_eq_singleton h.2, h.1]

theorem mem_of_mem_splitOn {p n : Bytes} {a : Byte} (h : n ∈ p.splitOn slash) (ha : a ∈ n) :
    a ∈ p ∧ a ≠ slash := by
  induction p generalizing n with
  | nil => simp_all
  | cons c cs ih =>
    have hcs : ∀ l ∈ cs.splitOn slash, a ∈ l → a ∈ c :: cs ∧ a ≠ slash := fun l hl hal =>
      ⟨List.mem_cons_of_mem _ (ih hl hal).1, (ih hl hal).2⟩
    rw [List.splitOn_cons_eq_if_modifyHead] at h
    split_ifs at h with hc
    · rcases List.mem_cons.mp h with rfl | h
      · simp at ha
      · exact hcs n h ha
    · obtain ⟨l, ls, hl⟩ := List.exists_cons_of_ne_nil (List.splitOn_ne_nil slash cs)
      rw [hl, List.modifyHead_cons] at h
      rcases List.mem_cons.mp h with rfl | h
      · rcases List.mem_cons.mp ha with rfl | ha
        · exact ⟨List.mem_cons_self, by simpa using hc⟩
        · exact hcs l (hl ▸ List.mem_cons_self) ha
      · exact hcs n (hl ▸ List.mem_cons_of_mem _ h) ha

theorem plainName_of_mem_names {p n : Bytes} (h : n ∈ names p) : PlainName n := by
  obtain ⟨hs, h0⟩ := List.mem_filter.mp h
  exact ⟨by simpa using h0, fun hsl => (mem_of_mem_splitOn hs hsl).2 rfl⟩

@[simp] theorem joined_nil : joined [] = [] := rfl

@[simp] theorem joined_cons (n : Bytes) (q : RealPath) :
    joined (n :: q) = slash :: n ++ joined q := rfl

@[simp] theorem joined_append (q r : RealPath) : joined (q ++ r) = joined q ++ joined r :=
  List.flatMap_append

theorem joined_ne_nil {q : RealPath} (h : q ≠ []) : joined q ≠ [] := by
  cases q with
  | nil => exact absurd rfl h
  | cons n q => simp

theorem names_append_joined (p : Bytes) {q : RealPath} (h : ∀ n ∈ q, PlainName n) :
    names (p ++ joined q) = names p ++ q := by
  induction q generalizing p with
  | nil => simp
  | cons n q ih =>
    have hn : PlainName n := h n List.mem_cons_self
    rw [joined_cons, List.cons_append, ← List.cons_append, ← List.append_assoc,
      ih (p ++ slash :: n) fun m hm => h m (List.mem_cons_of_mem _ hm), names_append_slash,
      names_of_plain hn]
    simp

theorem getLast?_joined {q : RealPath} (h : ∀ n ∈ q, PlainName n) :
    (joined q).getLast? ≠ some slash := by
  rcases List.eq_nil_or_concat q with rfl | ⟨r, n, rfl⟩
  · simp
  · obtain ⟨h0, hs⟩ := h n (by simp)
    obtain ⟨m, c, rfl⟩ := (List.eq_nil_or_concat n).resolve_left h0
    have hlast : (joined (r.concat (m.concat c))).getLast? = some c := by
      have he : joined (r.concat (m.concat c)) = joined r ++ slash :: m ++ [c] := by simp
      rw [he, List.getLast?_concat]
    rw [hlast]
    rintro ⟨⟩
    simp at hs

/-- Nothing, or text that starts with a slash. -/
def StartsCut (s : Bytes) : Prop := s = [] ∨ s.head? = some slash

theorem startsCut_joined_append (q : RealPath) {rest : Bytes} (h : StartsCut rest) :
    StartsCut (joined q ++ rest) := by
  cases q with
  | nil => exact h
  | cons n q => exact Or.inr rfl

theorem name_cut_unique {n m a b : Bytes} (hn : slash ∉ n) (hm : slash ∉ m)
    (ha : StartsCut a) (hb : StartsCut b) (h : n ++ a = m ++ b) : n = m ∧ a = b := by
  have htake : ∀ {l s : Bytes}, slash ∉ l → StartsCut s →
      (l ++ s).takeWhile (· ≠ slash) = l := by
    intro l s hl hs
    rw [List.takeWhile_append_of_pos fun c hc => by
      simpa using fun he : c = slash => hl (he ▸ hc)]
    rcases hs with rfl | hs
    · simp
    · obtain ⟨c, cs, rfl⟩ := List.exists_cons_of_ne_nil (l := s) (by rintro rfl; simp at hs)
      simp_all
  have hnm : n = m := by rw [← htake hn ha, ← htake hm hb, h]
  exact ⟨hnm, List.append_cancel_left (hnm ▸ h)⟩

theorem prefix_of_joined_eq {r t : RealPath} (hr : ∀ n ∈ r, PlainName n)
    (ht : ∀ n ∈ t, PlainName n) {rest : Bytes} (hrest : StartsCut rest)
    (h : joined t = joined r ++ rest) : r <+: t := by
  induction r generalizing t with
  | nil => exact List.nil_prefix
  | cons n r ih =>
    cases t with
    | nil => simp at h
    | cons m t =>
      simp only [joined_cons, List.cons_append, List.cons.injEq, true_and, List.append_assoc] at h
      have hm : StartsCut (joined t) := by
        simpa using startsCut_joined_append t (Or.inl rfl : StartsCut [])
      obtain ⟨rfl, he⟩ := name_cut_unique (ht m List.mem_cons_self).2 (hr n List.mem_cons_self).2
        hm (startsCut_joined_append r hrest) h
      rw [List.cons_prefix_cons]
      exact ⟨rfl, ih (fun k hk => hr k (List.mem_cons_of_mem _ hk))
        (fun k hk => ht k (List.mem_cons_of_mem _ hk)) he⟩

theorem names_underRoot (root : Bytes) {q : RealPath} (h : ∀ n ∈ q, PlainName n) :
    names (underRoot root q) = names root ++ q := by
  unfold underRoot
  split_ifs with hr
  · obtain ⟨m, rfl⟩ := List.getLast?_eq_some_iff.mp hr
    cases q with
    | nil => simp
    | cons n q =>
      have hm : names (m ++ [slash]) = names m := by simpa using names_append_slash m []
      rw [hm, ← names_append_joined m h]
      simp
  · exact names_append_joined root h

theorem getLast?_underRoot (root : Bytes) {q : RealPath} (h : ∀ n ∈ q, PlainName n)
    (h0 : q ≠ []) : (underRoot root q).getLast? ≠ some slash := by
  obtain ⟨n, r, rfl⟩ := List.exists_cons_of_ne_nil h0
  have hlast := getLast?_joined h
  unfold underRoot
  split_ifs with hr
  · have hn : n ++ joined r ≠ [] := by simp [(h n List.mem_cons_self).1]
    simp only [joined_cons, List.cons_append, List.tail_cons] at hlast ⊢
    rw [List.getLast?_append_of_ne_nil _ hn]
    rwa [List.getLast?_cons_of_ne_nil hn] at hlast
  · rwa [List.getLast?_append_of_ne_nil _ (joined_ne_nil h0)]

theorem components_underRoot (root : Bytes) {q : RealPath} (h : ∀ n ∈ q, PlainName n)
    (h0 : q ≠ []) : components (underRoot root q) = names root ++ q := by
  rw [components, if_neg (getLast?_underRoot root h h0), names_underRoot root h, List.append_nil]

theorem isAbsolute_underRoot {root : Bytes} (h : root ≠ []) (q : RealPath) :
    isAbsolute (underRoot root q) = isAbsolute root := by
  obtain ⟨c, cs, rfl⟩ := List.exists_cons_of_ne_nil h
  unfold underRoot
  split_ifs <;> simp [isAbsolute]

theorem underRoot_injective (root : Bytes) {q r : RealPath} (hq : ∀ n ∈ q, PlainName n)
    (hr : ∀ n ∈ r, PlainName n) (h : underRoot root q = underRoot root r) : q = r := by
  have h' := names_underRoot root hq
  rw [h, names_underRoot root hr] at h'
  exact (List.append_cancel_left h').symm

end SemanticSearch
