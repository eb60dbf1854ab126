import Fcfs.Vol.Geo
import Mathlib.Data.Nat.Bitwise
import Mathlib.Tactic.IntervalCases

/-! # The bitmap

A bitmap is read as the predicate `full` on cluster numbers. `dev_upd_bitmap` sets the bit of one
cluster to say whether its table has an entry left (`devUpdBitmap_eq`), whatever the bit was before;
`dev_free_cluster_from` finds the first cluster behind the given one that is not full
(`devFreeClusterFrom_eq`), as long as the byte it starts in is not full. -/

namespace Fcfs.Vol

/-- The driver's test of bit `num` of a byte. -/
def bitSet (x : UInt8) (num : ℕ) : Bool := bitOf x num == 1

/-- The cluster is marked full. -/
def full (bm : ℕ → UInt8) (cid : ℤ) : Bool := decide (0 ≤ cid) && bitSet (bm (cid.toNat / 8)) (cid.toNat % 8)

/-- The table has no free entry. -/
def taken (e : Fin 7 → BlkEnt) : Bool := decide (∀ i, (e i).fid ≠ 0)

/-! ### One byte -/

theorem mask_eq {num : ℕ} (h : num < 8) : (mask num).toNat = 2 ^ (7 - num) := by
  interval_cases num <;> rfl

theorem maskOff_eq {num : ℕ} (h : num < 8) : (maskOff num).toNat = 7 - num := by
  interval_cases num <;> rfl

theorem bitOf_toNat (x : UInt8) {num : ℕ} (h : num < 8) :
    (bitOf x num).toNat = (x.toNat.testBit (7 - num)).toNat := by
  unfold bitOf
  rw [UInt8.toNat_shiftRight, UInt8.toNat_and, mask_eq h, maskOff_eq h,
    Nat.mod_eq_of_lt (by omega), Nat.and_two_pow, Nat.shiftRight_eq_div_pow,
    Nat.mul_div_cancel _ (Nat.two_pow_pos _)]

theorem bitSet_eq (x : UInt8) {num : ℕ} (h : num < 8) : bitSet x num = x.toNat.testBit (7 - num) := by
  have hnat := bitOf_toNat x h
  unfold bitSet
  rw [Bool.eq_iff_iff, beq_iff_eq, ← UInt8.toNat_inj, hnat]
  cases x.toNat.testBit (7 - num) <;> simp

theorem bitOf_eq_zero (x : UInt8) (num : ℕ) (h : num < 8) : (bitOf x num == 0) = !bitSet x num := by
  have hnat := bitOf_toNat x h
  rw [bitSet_eq x h, Bool.eq_iff_iff, beq_iff_eq, ← UInt8.toNat_inj, hnat]
  cases x.toNat.testBit (7 - num) <;> simp

theorem bitSet_or_mask (x : UInt8) {num j : ℕ} (h : num < 8) (hj : j < 8) :
    bitSet (x ||| mask num) j = (decide (j = num) || bitSet x j) := by
  rw [bitSet_eq _ hj, bitSet_eq _ hj, UInt8.toNat_or, Nat.testBit_or, mask_eq h,
    Nat.testBit_two_pow, Bool.or_comm]
  congr 1
  rw [Bool.eq_iff_iff, decide_eq_true_iff, decide_eq_true_iff]
  omega

theorem bitSet_and_not_mask (x : UInt8) {num j : ℕ} (h : num < 8) (hj : j < 8) :
    bitSet (x &&& ~~~ mask num) j = (decide (j ≠ num) && bitSet x j) := by
  have hmask : (~~~ mask num).toNat.testBit (7 - j) = decide (j ≠ num) := by
    interval_cases num <;> interval_cases j <;> rfl
  rw [bitSet_eq _ hj, bitSet_eq _ hj, UInt8.toNat_and, Nat.testBit_and, hmask, Bool.and_comm]

theorem bitSet_zero (num : ℕ) : bitSet 0 num = false := by
  simp [bitSet, bitOf]

theorem ne_255_of_bitSet {x : UInt8} {num : ℕ} (h : num < 8) (hb : bitSet x num = false) : x ≠ 255 := by
  rintro rfl
  revert hb
  interval_cases num <;> decide

theorem bitSet_255 {num : ℕ} (h : num < 8) : bitSet 255 num = true := by
  interval_cases num <;> decide

/-! ### Updating the bitmap -/

variable {bm : ℕ → UInt8} {cid : ℤ}

theorem full_of_nonneg (bm : ℕ → UInt8) (h : 0 ≤ cid) :
    full bm cid = bitSet (bm (cid.toNat / 8)) (cid.toNat % 8) := by
  unfold full
  rw [decide_eq_true h, Bool.true_and]

theorem full_of_neg (bm : ℕ → UInt8) (h : cid < 0) : full bm cid = false := by
  unfold full
  rw [decide_eq_false (by omega), Bool.false_and]

theorem full_zero (cid : ℤ) : full (fun _ => 0) cid = false := by
  unfold full
  rw [bitSet_zero, Bool.and_false]

/-- Changing the byte of a cluster so that only its own bit changes. -/
theorem full_update (h : 0 ≤ cid) {x : UInt8} {v : Bool}
    (hx : ∀ j < 8, bitSet x j = if j = cid.toNat % 8 then v else bitSet (bm (cid.toNat / 8)) j) :
    full (Function.update bm (cid.toNat / 8) x) = Function.update (full bm) cid v := by
  funext c
  rcases lt_or_ge c 0 with hc | hc
  · rw [full_of_neg _ hc, Function.update_of_ne (by omega), full_of_neg _ hc]
  rw [full_of_nonneg _ hc]
  by_cases hbyte : c.toNat / 8 = cid.toNat / 8
  · rw [hbyte, Function.update_self, hx _ (by omega)]
    by_cases heq : c = cid
    · rw [heq, if_pos rfl, Function.update_self]
    · rw [if_neg (by omega), Function.update_of_ne heq, full_of_nonneg _ hc, hbyte]
  · have hne : c ≠ cid := by rintro rfl; exact hbyte rfl
    rw [Function.update_of_ne hbyte, Function.update_of_ne hne, full_of_nonneg _ hc]

theorem any_free_eq (e : Fin 7 → BlkEnt) :
    ((List.finRange 7).any fun i => (e i).fid == 0) = !taken e := by
  unfold taken
  rw [Bool.eq_iff_iff]
  simp

/-- **`dev_upd_bitmap` makes the bit say whether the table is full**, and reports no change only
when there was none. -/
theorem devUpdBitmap_eq (bm : ℕ → UInt8) (bl : BlockList) (h : 0 ≤ cid) :
    ∃ ch bm', devUpdBitmap bm bl cid = some (ch, bm') ∧
      full bm' = Function.update (full bm) cid (taken bl.entrs) ∧ (ch = false → bm' = bm) := by
  have hmod : cid.toNat % 8 < 8 := Nat.mod_lt _ (by omega)
  have hold : (bitOf (bm (cid.toNat / 8)) (cid.toNat % 8) == 1) = full bm cid :=
    (full_of_nonneg bm h).symm
  unfold devUpdBitmap
  simp only [if_neg (not_lt.mpr h), any_free_eq, hold, Bool.not_not]
  by_cases hfull : taken bl.entrs = full bm cid
  · refine ⟨false, bm, ?_, ?_, fun _ => rfl⟩
    · rw [hfull]
      cases full bm cid <;> rfl
    · rw [hfull, Function.update_eq_self]
  · rcases htak : taken bl.entrs with - | -
    · have hbit : full bm cid = true := by
        cases hb : full bm cid
        · exact absurd (htak.trans hb.symm) hfull
        · rfl
      refine ⟨true, _, by rw [hbit]; rfl, full_update h fun j hj => ?_, by simp⟩
      rw [bitSet_and_not_mask _ hmod hj]
      split_ifs with hjm
      · simp [hjm]
      · simp [hjm]
    · have hbit : full bm cid = false := by
        cases hb : full bm cid
        · rfl
        · exact absurd (htak.trans hb.symm) hfull
      refine ⟨true, _, by rw [hbit]; rfl, full_update h fun j hj => ?_, by simp⟩
      rw [bitSet_or_mask _ hmod hj]
      split_ifs with hjm
      · simp [hjm]
      · simp [hjm]

/-! ### Searching the bitmap -/

theorem scanByte_eq_none {x : UInt8} {sc : ℕ} (h : ∀ j < 8, sc ≤ j → bitSet x j = true) :
    scanByte x sc = none := by
  unfold scanByte
  rw [List.find?_eq_none]
  intro j hj
  obtain ⟨i, hi, rfl⟩ := List.getElem_of_mem hj
  rw [List.length_drop, List.length_range] at hi
  rw [List.getElem_drop, List.getElem_range, bitOf_eq_zero _ _ (by omega), h _ (by omega) (by omega)]
  simp

theorem scanByte_eq_some {x : UInt8} {sc k : ℕ} (hk : k < 8) (hle : sc ≤ k)
    (hclear : bitSet x k = false) (h : ∀ j < k, sc ≤ j → bitSet x j = true) :
    scanByte x sc = some k := by
  unfold scanByte
  have hsplit : (List.range 8).drop sc =
      (List.range (k - sc)).map (sc + ·) ++ k :: (List.range 8).drop (k + 1) := by
    refine List.ext_getElem (by simp; omega) fun i hi hi' => ?_
    rw [List.getElem_drop, List.getElem_range]
    rcases Nat.lt_trichotomy i (k - sc) with hlt | heq | hgt
    · rw [List.getElem_append_left (by simpa using hlt)]
      simp
    · rw [List.getElem_append_right (by simp; omega)]
      simp [heq]
      omega
    · rw [List.getElem_append_right (by simp; omega)]
      obtain ⟨m, hm⟩ : ∃ m, i = k - sc + 1 + m := ⟨i - (k - sc + 1), by omega⟩
      subst hm
      simp [Nat.add_assoc, Nat.add_comm 1 m]
      omega
  rw [hsplit, List.find?_append, List.find?_eq_none.mpr, Option.none_or, List.find?_cons_of_pos]
  · rw [bitOf_eq_zero _ _ hk, hclear]
    rfl
  · intro j hj
    obtain ⟨i, hi, rfl⟩ := List.mem_map.mp hj
    rw [List.mem_range] at hi
    rw [bitOf_eq_zero _ _ (by omega), h _ (by omega) (by omega)]
    simp

/-- The byte scan finds the first clear bit from `8 * i + sc` on. A full byte keeps `sc`, so the
byte it starts in must not be full unless `sc` is 0. -/
theorem scanFrom_eq {bm : ℕ → UInt8} {c : ℕ} (hclear : bitSet (bm (c / 8)) (c % 8) = false) :
    ∀ (n i sc : ℕ), c / 8 < i + n → 8 * i + sc ≤ c → sc ≤ 8 → (bm i ≠ 255 ∨ sc = 0) →
      (∀ c', 8 * i + sc ≤ c' → c' < c → bitSet (bm (c' / 8)) (c' % 8) = true) →
      scanFrom bm n i sc = c
  | 0, i, sc, hn, hle, _, _, _ => by omega
  | n + 1, i, sc, hn, hle, hsc8, hsc, hfull => by
    unfold scanFrom
    by_cases hi : c / 8 = i
    · subst hi
      have hne : bm (c / 8) ≠ 255 := ne_255_of_bitSet (Nat.mod_lt _ (by omega)) hclear
      rw [if_neg hne, scanByte_eq_some (Nat.mod_lt _ (by omega)) (by omega) hclear]
      · simp only
        omega
      · intro j hj hscj
        have hbit := hfull (8 * (c / 8) + j) (by omega) (by omega)
        rwa [show (8 * (c / 8) + j) / 8 = c / 8 by omega,
          show (8 * (c / 8) + j) % 8 = j by omega] at hbit
    · have hnone : bm i ≠ 255 → scanByte (bm i) sc = none := by
        intro _
        refine scanByte_eq_none fun j hj hscj => ?_
        have hbit := hfull (8 * i + j) (by omega) (by omega)
        rwa [show (8 * i + j) / 8 = i by omega, show (8 * i + j) % 8 = j by omega] at hbit
      have hrec := scanFrom_eq hclear n (i + 1) 0 (by omega) (by omega) (by omega) (Or.inr rfl)
        fun c' hc' hlt => hfull c' (by omega) hlt
      split_ifs with h255
      · obtain rfl : sc = 0 := hsc.resolve_left (by simpa using h255)
        exact hrec
      · rw [hnone h255]
        exact hrec

/-- **`dev_free_cluster_from` finds the next cluster that is not full**, from a cluster that is not
full itself. It reads a byte for every cluster of the volume, so it would find one behind them. -/
theorem devFreeClusterFrom_eq {a : Args} {c : ℤ} (h0 : 0 ≤ cid) (hcid : full bm cid = false)
    (hlt : cid < c) (hc : c / 8 < a.cluCnt) (hclear : full bm c = false)
    (hfull : ∀ c', cid < c' → c' < c → full bm c' = true) : devFreeClusterFrom a bm cid = c := by
  obtain ⟨k, rfl⟩ := Int.eq_ofNat_of_zero_le h0
  obtain ⟨m, rfl⟩ := Int.eq_ofNat_of_zero_le (show 0 ≤ c by omega)
  rw [full_of_nonneg _ (by omega), Int.toNat_natCast] at hcid hclear
  have hsg : ((k : ℤ).tdiv 8) = ((k / 8 : ℕ) : ℤ) := rfl
  have hmod : ((k : ℤ).tmod 8) = ((k % 8 : ℕ) : ℤ) := rfl
  unfold devFreeClusterFrom
  simp only [hsg, hmod]
  rw [if_neg (by omega), Int.toNat_natCast, show (((k % 8 : ℕ) : ℤ) + 1).toNat = k % 8 + 1 by omega]
  refine scanFrom_eq hclear _ _ _ (by omega) (by omega) (by omega)
    (Or.inl (ne_255_of_bitSet (Nat.mod_lt _ (by omega)) hcid)) fun c' hle hlt' => ?_
  have hbit := hfull c' (by omega) (by omega)
  rwa [full_of_nonneg _ (by omega), Int.toNat_natCast] at hbit

end Fcfs.Vol
