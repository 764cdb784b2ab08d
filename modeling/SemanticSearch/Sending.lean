import SemanticSearch.Bytes

namespace SemanticSearch

/-- What a `write` returns: it takes `n + 1` bytes, or all that are left, or it fails. -/
inductive Wrote
  | took (n : ℕ)
  | failed
  deriving DecidableEq, Repr

/-- How a loop ended, the bytes that were taken, and the writes to come. -/
structure Sent where
  ok : Bool
  bytes : Bytes
  writes : List Wrote
  deriving DecidableEq, Repr

/-- `SendAll`. Behind the last write the connection is broken. -/
def sendAll : List Wrote → Bytes → Sent
  | writes, [] => ⟨true, [], writes⟩
  | [], _ :: _ => ⟨false, [], []⟩
  | .failed :: writes, _ :: _ => ⟨false, [], writes⟩
  | .took n :: writes, c :: cs =>
    let sent := sendAll writes (cs.drop n)
    { sent with bytes := c :: cs.take n ++ sent.bytes }

theorem bytes_sendAll (writes : List Wrote) (buf : Bytes) : (sendAll writes buf).bytes <+: buf := by
  fun_induction sendAll writes buf with
  | case1 => exact List.nil_prefix
  | case2 => exact List.nil_prefix
  | case3 => exact List.nil_prefix
  | case4 n writes c cs sent ih =>
    rw [List.cons_append, List.prefix_cons_inj]
    nth_rewrite 2 [← List.take_append_drop n cs]
    exact (List.prefix_append_right_inj _).mpr ih

theorem ok_sendAll_iff (writes : List Wrote) (buf : Bytes) :
    (sendAll writes buf).ok ↔ (sendAll writes buf).bytes = buf := by
  fun_induction sendAll writes buf with
  | case1 => simp
  | case2 => simp
  | case3 => simp
  | case4 n writes c cs sent ih =>
    have hsplit : c :: cs = c :: cs.take n ++ cs.drop n := by simp
    rw [ih, hsplit, List.append_right_inj]

end SemanticSearch
