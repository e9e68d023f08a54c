import Mathlib.Data.List.Basic

/-!
# Chains of blocks

A hash of the Merkle–Damgård kind puts a message through a compression function, one block of `k`
symbols after another.  A message that comes in pieces can be hashed as it comes, if what does not
fill a block is kept for the next piece.
-/

namespace BlockHash

variable {σ τ α : Type} {compress : σ → List α → σ} {k : Nat}

/-! ## 1. Chains -/

/-- The `i`-th block of a message. -/
def block (k : Nat) (m : List α) (i : Nat) : List α := (m.drop (k * i)).take k

/-- The state behind the whole blocks of a message. -/
def chain (compress : σ → List α → σ) (k : Nat) (s : σ) (m : List α) : σ :=
  (List.range (m.length / k)).foldl (fun s i => compress s (block k m i)) s

/-- What is left behind them. -/
def rest (k : Nat) (m : List α) : List α := m.drop (k * (m.length / k))

theorem rest_length (k : Nat) (m : List α) : (rest k m).length = m.length % k := by
  rw [rest, List.length_drop, Nat.mod_eq_sub]

theorem chain_short {m : List α} (h : m.length < k) (s : σ) : chain compress k s m = s := by
  rw [chain, Nat.div_eq_of_lt h]
  rfl

theorem rest_short {m : List α} (h : m.length < k) : rest k m = m := by
  rw [rest, Nat.div_eq_of_lt h]
  rfl

theorem block_append {b m : List α} (hb : b.length = k) (i : Nat) :
    block k (b ++ m) (i + 1) = block k m i := by
  rw [block, block, Nat.mul_succ, Nat.add_comm, ← List.drop_drop, List.drop_left' hb]

theorem length_div_append {b m : List α} (hk : 0 < k) (hb : b.length = k) :
    (b ++ m).length / k = m.length / k + 1 := by
  rw [List.length_append, hb, Nat.add_comm, Nat.add_div_right _ hk]

theorem chain_block {b m : List α} (hk : 0 < k) (hb : b.length = k) (s : σ) :
    chain compress k s (b ++ m) = chain compress k (compress s b) m := by
  have hfirst : block k (b ++ m) 0 = b := by
    rw [block, Nat.mul_zero, List.drop_zero, List.take_left' hb]
  rw [chain, length_div_append hk hb, List.range_succ_eq_map, List.foldl_cons, hfirst,
    List.foldl_map]
  simp only [block_append hb]
  rfl

theorem rest_block {b m : List α} (hk : 0 < k) (hb : b.length = k) :
    rest k (b ++ m) = rest k m := by
  rw [rest, rest, length_div_append hk hb, Nat.mul_succ, Nat.add_comm, ← List.drop_drop,
    List.drop_left' hb]

/-! ## 2. Messages that come in pieces -/

/-- Induction over the whole blocks of a message. -/
theorem blocks_induction {P : List α → Prop} (hk : 0 < k) (short : ∀ m, m.length < k → P m)
    (step : ∀ b m, b.length = k → P m → P (b ++ m)) (m : List α) : P m := by
  -- a block is taken off at a time, which shortens the message since `0 < k`
  suffices h : ∀ n m, m.length ≤ n → P m from h m.length m (Nat.le_refl _)
  intro n
  induction n with
  | zero =>
    intro m hm
    exact short m (Nat.lt_of_le_of_lt hm hk)
  | succ n ih =>
    intro m hm
    by_cases hlen : m.length < k
    · exact short m hlen
    · have hdrop : (m.drop k).length ≤ n := by
        rw [List.length_drop]
        omega
      have htake : (m.take k).length = k := List.length_take_of_le (Nat.not_lt.mp hlen)
      have hm := step (m.take k) (m.drop k) htake (ih _ hdrop)
      rwa [List.take_append_drop] at hm

/-- What is left of one piece goes before the next one. -/
theorem chain_append (hk : 0 < k) (s : σ) (m p : List α) :
    chain compress k s (m ++ p) = chain compress k (chain compress k s m) (rest k m ++ p) := by
  induction m using blocks_induction hk generalizing s with
  | short m hm => rw [chain_short hm, rest_short hm]
  | step b m hb ih =>
    rw [List.append_assoc, chain_block hk hb, chain_block hk hb, rest_block hk hb, ih]

theorem rest_append (hk : 0 < k) (m p : List α) : rest k (m ++ p) = rest k (rest k m ++ p) := by
  induction m using blocks_induction hk with
  | short m hm => rw [rest_short hm]
  | step b m hb ih => rw [List.append_assoc, rest_block hk hb, rest_block hk hb, ih]

/-- Two compression functions that agree on whole blocks. -/
theorem chain_map (hk : 0 < k) {compress' : τ → List α → τ} {f : σ → τ}
    (hf : ∀ s b, b.length = k → f (compress s b) = compress' (f s) b) (s : σ) (m : List α) :
    f (chain compress k s m) = chain compress' k (f s) m := by
  induction m using blocks_induction hk generalizing s with
  | short m hm => rw [chain_short hm, chain_short hm]
  | step b m hb ih => rw [chain_block hk hb, chain_block hk hb, ih, hf s b hb]

end BlockHash
