import Mathlib.Data.Nat.Basic
import Mathlib.Tactic.Ring
import Mathlib.Tactic.NormNum

/-! # Byte buffers and little-endian words

A buffer is the function from an index to the byte there, as a C pointer sees memory; how many of
its bytes mean something is said by whoever uses it. `memcpy` overwrites a range, `shift` moves the
pointer, `cut` is a buffer of `n` bytes with nothing behind it. Words are stored least significant
byte first: `leByte v i` is byte `i` of `v`, `leNat n b` the number in the first `n` bytes of `b`, and
the bytes of a number read back as the number (`leNat_leByte`). -/

namespace Fcfs.Lib.Bytes

/-- Memory behind a pointer. -/
abbrev Buf := ℕ → UInt8

/-- The pointer moved forward by `k` bytes. -/
def shift (b : Buf) (k : ℕ) : Buf := fun i => b (k + i)

/-- The first `n` bytes, zero behind them. -/
def cut (n : ℕ) (b : Buf) : Buf := fun i => if i < n then b i else 0

/-- `memcpy(dst + off, src, n)`. -/
def memcpy (dst : Buf) (off : ℕ) (src : Buf) (n : ℕ) : Buf :=
  fun i => if off ≤ i ∧ i < off + n then src (i - off) else dst i

@[simp] theorem shift_apply (b : Buf) (k i : ℕ) : shift b k i = b (k + i) := rfl

@[simp] theorem shift_zero (b : Buf) : shift b 0 = b := by
  funext i; simp

theorem shift_shift (b : Buf) (j k : ℕ) : shift (shift b j) k = shift b (j + k) := by
  funext i; simp [Nat.add_assoc]

theorem cut_of_lt {n i : ℕ} (b : Buf) (h : i < n) : cut n b i = b i := if_pos h

theorem cut_of_le {n i : ℕ} (b : Buf) (h : n ≤ i) : cut n b i = 0 := if_neg (by omega)

theorem cut_congr {n : ℕ} {b b' : Buf} (h : ∀ i < n, b i = b' i) : cut n b = cut n b' := by
  funext i
  unfold cut
  split_ifs with hi
  · exact h i hi
  · rfl

@[simp] theorem cut_cut (n : ℕ) (b : Buf) : cut n (cut n b) = cut n b :=
  cut_congr fun _ hi => cut_of_lt b hi

theorem memcpy_in {dst src : Buf} {off n i : ℕ} (h : off ≤ i) (h' : i < off + n) :
    memcpy dst off src n i = src (i - off) := if_pos ⟨h, h'⟩

theorem memcpy_out {dst src : Buf} {off n i : ℕ} (h : i < off ∨ off + n ≤ i) :
    memcpy dst off src n i = dst i := if_neg (by omega)

/-! ### Words -/

/-- Byte `i` of the number `v`. -/
def leByte (v : ℕ) : Buf := fun i => UInt8.ofNat (v / 256 ^ i)

/-- The number in the first `n` bytes. -/
def leNat : ℕ → Buf → ℕ
  | 0, _ => 0
  | n + 1, b => (b 0).toNat + 256 * leNat n (shift b 1)

theorem leNat_congr {n : ℕ} {b b' : Buf} (h : ∀ i < n, b i = b' i) : leNat n b = leNat n b' := by
  induction n generalizing b b' with
  | zero => rfl
  | succ n ih =>
    have htail : leNat n (shift b 1) = leNat n (shift b' 1) := ih fun i hi => h (1 + i) (by omega)
    unfold leNat
    rw [h 0 (by omega), htail]

theorem shift_leByte (v : ℕ) : shift (leByte v) 1 = leByte (v / 256) := by
  funext i
  simp [leByte, Nat.add_comm 1 i, pow_succ', Nat.div_div_eq_div_mul]

theorem leNat_leByte (n v : ℕ) : leNat n (leByte v) = v % 256 ^ n := by
  induction n generalizing v with
  | zero => simp [leNat, Nat.mod_one]
  | succ n ih =>
    have h0 : (leByte v 0).toNat = v % 256 := by
      simp [leByte, UInt8.toNat_ofNat']
    unfold leNat
    rw [shift_leByte, ih, h0, pow_succ', Nat.mod_mul]

/-- The 16-bit word at `off`. -/
def get16 (b : Buf) (off : ℕ) : UInt16 := UInt16.ofNat (leNat 2 (shift b off))

/-- The 32-bit word at `off`. -/
def get32 (b : Buf) (off : ℕ) : UInt32 := UInt32.ofNat (leNat 4 (shift b off))

/-- The 64-bit word at `off`. -/
def get64 (b : Buf) (off : ℕ) : UInt64 := UInt64.ofNat (leNat 8 (shift b off))

theorem get16_eq {b : Buf} {off : ℕ} {v : UInt16} (h : ∀ i < 2, b (off + i) = leByte v.toNat i) :
    get16 b off = v := by
  have hv : v.toNat < 256 ^ 2 := v.toNat_lt
  unfold get16
  rw [leNat_congr (b := shift b off) h, leNat_leByte, Nat.mod_eq_of_lt hv, UInt16.ofNat_toNat]

theorem get32_eq {b : Buf} {off : ℕ} {v : UInt32} (h : ∀ i < 4, b (off + i) = leByte v.toNat i) :
    get32 b off = v := by
  have hv : v.toNat < 256 ^ 4 := v.toNat_lt
  unfold get32
  rw [leNat_congr (b := shift b off) h, leNat_leByte, Nat.mod_eq_of_lt hv, UInt32.ofNat_toNat]

theorem get64_eq {b : Buf} {off : ℕ} {v : UInt64} (h : ∀ i < 8, b (off + i) = leByte v.toNat i) :
    get64 b off = v := by
  have hv : v.toNat < 256 ^ 8 := v.toNat_lt
  unfold get64
  rw [leNat_congr (b := shift b off) h, leNat_leByte, Nat.mod_eq_of_lt hv, UInt64.ofNat_toNat]

theorem get16_congr {b b' : Buf} {off : ℕ} (h : ∀ i < 2, b (off + i) = b' (off + i)) :
    get16 b off = get16 b' off := by
  exact congrArg UInt16.ofNat (leNat_congr h)

theorem get32_congr {b b' : Buf} {off : ℕ} (h : ∀ i < 4, b (off + i) = b' (off + i)) :
    get32 b off = get32 b' off := by
  exact congrArg UInt32.ofNat (leNat_congr h)

theorem get64_congr {b b' : Buf} {off : ℕ} (h : ∀ i < 8, b (off + i) = b' (off + i)) :
    get64 b off = get64 b' off := by
  exact congrArg UInt64.ofNat (leNat_congr h)

/-! ### Structures

A structure in memory is a list of words (offset, width, value) in the order of their offsets; the
bytes no word covers are padding. -/

/-- The bytes of a structure with the given words. -/
def layout (ws : List (ℕ × ℕ × ℕ)) : Buf := fun k =>
  match ws.find? fun w => decide (w.1 ≤ k ∧ k < w.1 + w.2.1) with
  | some w => leByte w.2.2 (k - w.1)
  | none => 0

/-- The words do not overlap and stand in order. -/
def Ordered (ws : List (ℕ × ℕ × ℕ)) : Prop := ws.Pairwise fun v w => v.1 + v.2.1 ≤ w.1

theorem layout_word {ws : List (ℕ × ℕ × ℕ)} (hord : Ordered ws) {w : ℕ × ℕ × ℕ} (hw : w ∈ ws) {i : ℕ}
    (hi : i < w.2.1) : layout ws (w.1 + i) = leByte w.2.2 i := by
  have hfind : ws.find? (fun v => decide (v.1 ≤ w.1 + i ∧ w.1 + i < v.1 + v.2.1)) = some w := by
    induction ws with
    | nil => simp at hw
    | cons v ws ih =>
      obtain ⟨hv, hord⟩ := List.pairwise_cons.mp hord
      rcases List.mem_cons.mp hw with rfl | hw
      · rw [List.find?_cons_of_pos (by simpa using hi)]
      · have hle := hv w hw
        rw [List.find?_cons_of_neg (by simp; omega)]
        exact ih hord hw
  unfold layout
  rw [hfind]
  simp

end Fcfs.Lib.Bytes
