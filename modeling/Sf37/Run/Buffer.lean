/-
Sf37.Run.Buffer — a state that takes a stream in blocks of one length and buffers what
does not fill a block.

* `blocks_append`: what comes later does not change the blocks that are there.
* `Buffers.within`, `Buffers.fill`: a buffered stream goes on, up to the end of its block.
-/
import Mathlib.Data.List.TakeDrop

namespace Sf37.Run

variable {σ α : Type} {f : σ → List α → σ} {n : Nat}

/-- The state after the first blocks of a stream. -/
def blocks (f : σ → List α → σ) (n : Nat) (s : σ) (xs : List α) : Nat → σ
  | 0 => s
  | k + 1 => f (blocks f n s xs k) ((xs.drop (n * k)).take n)

theorem blocks_append (s : σ) (xs ys : List α) {k : Nat} (h : n * k ≤ xs.length) :
    blocks f n s (xs ++ ys) k = blocks f n s xs k := by
  induction k with
  | zero => rfl
  | succ k ih =>
    rw [Nat.mul_succ] at h
    have hblock : ((xs ++ ys).drop (n * k)).take n = (xs.drop (n * k)).take n := by
      rw [List.drop_append_of_le_length (by omega),
        List.take_append_of_le_length (by rw [List.length_drop]; omega)]
    rw [blocks, blocks, ih (by omega), hblock]

/-- A state and a buffer that a stream has come to. -/
structure Buffers (f : σ → List α → σ) (n : Nat) (start : σ) (xs : List α) (s : σ)
    (buffer : List α) : Prop where
  state : s = blocks f n start xs (xs.length / n)
  rest : buffer = xs.drop (n * (xs.length / n))

variable {start s : σ} {xs buffer : List α}

theorem Buffers.nil : Buffers f n start [] start [] := by
  refine ⟨?_, by simp⟩
  rw [List.length_nil, Nat.zero_div]
  rfl

theorem Buffers.length (h : Buffers f n start xs s buffer) : buffer.length = xs.length % n := by
  rw [h.rest, List.length_drop]
  have hdiv := Nat.div_add_mod xs.length n
  omega

/-- A stream goes on inside the block. -/
theorem Buffers.within (hn : 0 < n) (h : Buffers f n start xs s buffer) (ys : List α)
    (hys : buffer.length + ys.length < n) :
    Buffers f n start (xs ++ ys) s (buffer ++ ys) := by
  have hlen := h.length
  have hdiv := Nat.div_add_mod xs.length n
  have hsame : (xs.length + ys.length) / n = xs.length / n := by
    rw [Nat.div_eq_iff hn]
    rw [Nat.mul_comm] at hdiv
    omega
  refine ⟨?_, ?_⟩
  · rw [List.length_append, hsame, blocks_append _ _ _ (by omega)]
    exact h.state
  · rw [List.length_append, hsame, List.drop_append_of_le_length (by omega), h.rest]

/-- A stream goes on to the end of the block. -/
theorem Buffers.fill (hn : 0 < n) (h : Buffers f n start xs s buffer) (ys : List α)
    (hys : buffer.length + ys.length = n) :
    Buffers f n start (xs ++ ys) (f s (buffer ++ ys)) [] := by
  have hlen := h.length
  have hdiv := Nat.div_add_mod xs.length n
  have hnext : (xs.length + ys.length) / n = xs.length / n + 1 := by
    rw [Nat.div_eq_iff hn, Nat.add_mul, Nat.mul_comm]
    omega
  have hblock : ((xs ++ ys).drop (n * (xs.length / n))).take n = buffer ++ ys := by
    rw [List.drop_append_of_le_length (by omega), ← h.rest, List.take_of_length_le]
    rw [List.length_append]
    omega
  refine ⟨?_, ?_⟩
  · rw [List.length_append, hnext, blocks, hblock, blocks_append _ _ _ (by omega), ← h.state]
  · rw [List.length_append, hnext, List.drop_eq_nil_of_le]
    rw [List.length_append, Nat.mul_succ]
    omega

end Sf37.Run
