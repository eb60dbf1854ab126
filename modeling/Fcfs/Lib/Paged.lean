import Fcfs.Lib.Bytes

/-! # Paged contents

Contents kept in pages of `L` bytes are read as one sequence of bytes, `flat`. A piece of it is
fetched page by page into a buffer (`fetch`), changed there, and put back page by page (`store`).
Doing all three changes exactly the bytes of the piece (`flat_store_memcpy`), wherever it begins and
ends in its first and last page. -/

namespace Fcfs.Lib.Paged

open Lib.Bytes

variable {L : ℕ}

/-- The pages as one sequence of bytes. -/
def flat (L : ℕ) (pg : ℕ → Buf) : Buf := fun p => pg (p / L) (p % L)

theorem flat_page (pg : ℕ → Buf) (k : ℕ) {i : ℕ} (hi : i < L) : flat L pg (k * L + i) = pg k i := by
  unfold flat
  rw [Nat.mul_comm, Nat.mul_add_div (by omega), Nat.div_eq_of_lt hi, Nat.add_zero, Nat.mul_add_mod,
    Nat.mod_eq_of_lt hi]

/-- The buffer `tmp` after pages `first + i`, …, `first + i + n - 1` have been fetched to their
places in it. -/
def fetch (L : ℕ) (pg : ℕ → Buf) (first : ℕ) : ℕ → ℕ → Buf → Buf
  | 0, _, tmp => tmp
  | n + 1, i, tmp => fetch L pg first n (i + 1) (memcpy tmp (i * L) (pg (first + i)) L)

/-- The pages after the same places of `tmp` have been put back. -/
def store (L : ℕ) (tmp : Buf) (first : ℕ) : ℕ → ℕ → (ℕ → Buf) → ℕ → Buf
  | 0, _, pg => pg
  | n + 1, i, pg =>
    store L tmp first n (i + 1) (Function.update pg (first + i) (cut L (shift tmp (i * L))))

theorem fetch_apply (pg : ℕ → Buf) (first n : ℕ) : ∀ (i : ℕ) (tmp : Buf) (k : ℕ),
    fetch L pg first n i tmp k =
      if i * L ≤ k ∧ k < (i + n) * L then flat L pg (first * L + k) else tmp k := by
  induction n with
  | zero =>
    intro i tmp k
    rw [if_neg (by rw [Nat.add_zero]; omega)]
    rfl
  | succ n ih =>
    intro i tmp k
    have hsucc : (i + 1) * L = i * L + L := Nat.succ_mul _ _
    have hend : (i + (n + 1)) * L = (i + 1 + n) * L := by ring
    have hmono : (i + 1) * L ≤ (i + 1 + n) * L := Nat.mul_le_mul_right _ (by omega)
    unfold fetch
    rw [ih, hend]
    by_cases hpage : i * L ≤ k ∧ k < i * L + L
    · obtain ⟨j, rfl⟩ := Nat.exists_eq_add_of_le hpage.1
      have hj : j < L := by omega
      rw [if_neg (by omega), if_pos (by omega), memcpy_in (by omega) (by omega),
        Nat.add_sub_cancel_left, ← Nat.add_assoc, ← Nat.add_mul, flat_page pg _ hj]
    · rw [memcpy_out (by omega)]
      by_cases hrest : (i + 1) * L ≤ k ∧ k < (i + 1 + n) * L
      · rw [if_pos hrest, if_pos (by omega)]
      · rw [if_neg hrest, if_neg (by omega)]

theorem store_apply (tmp : Buf) (first n : ℕ) : ∀ (i : ℕ) (pg : ℕ → Buf) (k : ℕ),
    store L tmp first n i pg k =
      if first + i ≤ k ∧ k < first + i + n then cut L (shift tmp ((k - first) * L)) else pg k := by
  induction n with
  | zero =>
    intro i pg k
    rw [if_neg (by omega)]
    rfl
  | succ n ih =>
    intro i pg k
    unfold store
    rw [ih]
    by_cases hk : k = first + i
    · rw [if_neg (by omega), if_pos (by omega), hk, Function.update_self, Nat.add_sub_cancel_left]
    · rw [Function.update_of_ne hk]
      by_cases hrest : first + (i + 1) ≤ k ∧ k < first + (i + 1) + n
      · rw [if_pos hrest, if_pos (by omega)]
      · rw [if_neg hrest, if_neg (by omega)]

theorem flat_store (hL : 0 < L) (tmp : Buf) (first n : ℕ) (pg : ℕ → Buf) (p : ℕ) :
    flat L (store L tmp first n 0 pg) p =
      if first * L ≤ p ∧ p < (first + n) * L then tmp (p - first * L) else flat L pg p := by
  have hdiv : L * (p / L) + p % L = p := Nat.div_add_mod p L
  have hmod : p % L < L := Nat.mod_lt _ hL
  unfold flat
  rw [store_apply, Nat.add_zero]
  by_cases hin : first ≤ p / L ∧ p / L < first + n
  · obtain ⟨q, hq⟩ := Nat.exists_eq_add_of_le hin.1
    have hlo : first * L ≤ p := (Nat.le_div_iff_mul_le hL).mp hin.1
    have hhi : p < (first + n) * L := (Nat.div_lt_iff_lt_mul hL).mp hin.2
    rw [if_pos hin, if_pos ⟨hlo, hhi⟩, cut_of_lt _ hmod, shift_apply, hq, Nat.add_sub_cancel_left]
    congr 1
    rw [hq, Nat.mul_add, Nat.mul_comm L first, Nat.mul_comm L q] at hdiv
    omega
  · rw [if_neg hin, if_neg fun h => hin ⟨(Nat.le_div_iff_mul_le hL).mpr h.1,
      (Nat.div_lt_iff_lt_mul hL).mpr h.2⟩]

/-- **Read, modify, write**: of the bytes, those of the piece are replaced. -/
theorem flat_store_memcpy (hL : 0 < L) (pg : ℕ → Buf) (first n off size : ℕ) (src junk : Buf)
    (hfit : off + size ≤ n * L) :
    flat L (store L (memcpy (fetch L pg first n 0 junk) off src size) first n 0 pg) =
      memcpy (flat L pg) (first * L + off) src size := by
  funext p
  rw [flat_store hL]
  have hadd : (first + n) * L = first * L + n * L := Nat.add_mul _ _ _
  by_cases hin : first * L ≤ p ∧ p < (first + n) * L
  · obtain ⟨k, rfl⟩ := Nat.exists_eq_add_of_le hin.1
    rw [if_pos hin, Nat.add_sub_cancel_left]
    by_cases hpiece : off ≤ k ∧ k < off + size
    · rw [memcpy_in hpiece.1 hpiece.2, memcpy_in (by omega) (by omega), Nat.add_sub_add_left]
    · rw [memcpy_out (by omega), memcpy_out (by omega), fetch_apply,
        if_pos ⟨by omega, by rw [Nat.zero_add]; omega⟩]
  · rw [if_neg hin, memcpy_out (by omega)]

end Fcfs.Lib.Paged
