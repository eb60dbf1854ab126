import Mathlib.Data.Int.ModEq
import Mathlib.Data.List.Basic
import Mathlib.Logic.Function.Basic

/-! # Writing round a ring

A stream goes over a ring of `n` slots, one slot an element: `some x` stores `x`, `none` passes the
slot by. A slot that was only passed by keeps its value (`run_passed`), any other holds an element
that was stored in it (`run_stored`), and the last round is there in full if nothing was passed by
in it (`run_round`). -/

namespace Fcfs.Lib.Ring

variable {α : Type*}

/-- The slots after the stream `l` has gone over them from position `i` on. -/
def run (n : ℕ) : ℕ → List (Option α) → (ℕ → α) → ℕ → α
  | _, [], b => b
  | i, none :: l, b => run n (i + 1) l b
  | i, some x :: l, b => run n (i + 1) l (Function.update b (i % n) x)

theorem run_append (n : ℕ) (l l' : List (Option α)) : ∀ (i : ℕ) (b : ℕ → α),
    run n i (l ++ l') b = run n (i + l.length) l' (run n i l b) := by
  induction l with
  | nil => exact fun _ _ => rfl
  | cons x l ih =>
    intro i b
    rw [List.length_cons, show i + (l.length + 1) = i + 1 + l.length by omega]
    cases x with
    | none => exact ih (i + 1) b
    | some x => exact ih (i + 1) _

theorem run_passed {n k : ℕ} {l : List (Option α)} : ∀ {i : ℕ} {b : ℕ → α},
    (∀ (j : ℕ) x, l[j]? = some (some x) → (i + j) % n ≠ k) → run n i l b k = b k := by
  induction l with
  | nil => exact fun _ => rfl
  | cons y l ih =>
    intro i b h
    have hrest : ∀ (j : ℕ) x, l[j]? = some (some x) → (i + 1 + j) % n ≠ k := fun j x hj => by
      rw [Nat.add_assoc, Nat.add_comm 1 j]
      exact h (j + 1) x hj
    cases y with
    | none => exact ih hrest
    | some y => exact (ih hrest).trans (Function.update_of_ne (h 0 y rfl).symm _ _)

/-- A slot something is stored in holds an element of the stream. -/
theorem run_stored {n j : ℕ} {x : α} {l : List (Option α)} : ∀ {i : ℕ} {b : ℕ → α},
    l[j]? = some (some x) → ∃ (j' : ℕ) (x' : α), l[j']? = some (some x') ∧ run n i l b ((i + j) % n) = x' := by
  induction l generalizing j x with
  | nil => exact fun h => by simp at h
  | cons y l ih =>
    intro i b h
    by_cases hlater : ∃ (j' : ℕ) (x' : α), l[j']? = some (some x') ∧ (i + 1 + j') % n = (i + j) % n
    · obtain ⟨j', x', hj', hmod⟩ := hlater
      rw [← hmod]
      cases y with
      | none =>
        obtain ⟨k, z, hk, hz⟩ := ih (i := i + 1) (b := b) hj'
        exact ⟨k + 1, z, hk, hz⟩
      | some y =>
        obtain ⟨k, z, hk, hz⟩ := ih (i := i + 1) (b := Function.update b (i % n) y) hj'
        exact ⟨k + 1, z, hk, hz⟩
    · -- the first element is the last one stored there
      have hno : ∀ (j' : ℕ) x', l[j']? = some (some x') → (i + 1 + j') % n ≠ (i + j) % n :=
        fun j' x' hj' heq => hlater ⟨j', x', hj', heq⟩
      obtain rfl : j = 0 := by
        cases j with
        | zero => rfl
        | succ j => exact absurd (by rw [Nat.add_assoc, Nat.add_comm 1]) (hno j x h)
      obtain rfl : y = some x := by simpa using h
      refine ⟨0, x, rfl, ?_⟩
      exact (run_passed hno).trans (Function.update_self _ _ _)

/-- A round in which nothing is passed by is there at its end. -/
theorem run_round {n : ℕ} {w : List α} (hn : w.length ≤ n) {j : ℕ} (hj : j < w.length) (i : ℕ)
    (b : ℕ → α) : run n i (w.map some) b ((i + j) % n) = w[j] := by
  induction w generalizing i j b with
  | nil => cases hj
  | cons x w ih =>
    rw [List.length_cons] at hn hj
    cases j with
    | zero =>
      have hno : ∀ (k : ℕ) y, (w.map some)[k]? = some (some y) → (i + 1 + k) % n ≠ i % n := by
        intro k y hk heq
        have hlt : k < w.length := by
          have := (List.getElem?_eq_some_iff.mp hk).1
          rwa [List.length_map] at this
        have hmod : 1 + k ≡ 0 [MOD n] := Nat.ModEq.add_left_cancel' i (by
          rw [← Nat.add_assoc]
          exact heq)
        rw [Nat.ModEq, Nat.mod_eq_of_lt (by omega), Nat.zero_mod] at hmod
        omega
      exact (run_passed hno).trans (Function.update_self _ _ _)
    | succ j =>
      have := ih (by omega) (show j < w.length by omega) (i + 1) (Function.update b (i % n) x)
      rw [Nat.add_assoc, Nat.add_comm 1] at this
      exact this

end Fcfs.Lib.Ring
