import Fcfs.Vol.Free

/-! # The end of the bitmap

The loop of `dev_free_cluster_from` goes over bytes of the bitmap and ends at `clu_cnt`, which
counts clusters. As long as a cluster behind the start is clear, it stops there in time. Otherwise
it goes on behind the bitmap, and takes a clear bit it finds there for a cluster
(`staysOnVolume_iff`). -/

namespace Fcfs.Vol

/-- The outer loop of `dev_free_cluster_from` with the bytes it reads. -/
def scanRun (bm : ℕ → UInt8) : ℕ → ℕ → ℕ → ℤ × List ℕ
  | 0, _, _ => (-1, [])
  | n + 1, i, sc =>
    if bm i = 255 then ((scanRun bm n (i + 1) sc).1, i :: (scanRun bm n (i + 1) sc).2)
    else match scanByte (bm i) sc with
      | some j => (i * 8 + j, [i])
      | none => ((scanRun bm n (i + 1) 0).1, i :: (scanRun bm n (i + 1) 0).2)

/-- The bytes of the bitmap `dev_free_cluster_from` reads. -/
def bytesRead (a : Args) (bm : ℕ → UInt8) (cid : ℤ) : List ℕ :=
  let sg := cid.tdiv 8
  let sc := cid.tmod 8 + 1
  if sg < 0 then [] else (scanRun bm (a.cluCnt - sg.toNat) sg.toNat sc.toNat).2

/-- **The search stays on the volume**: it finds the next clear cluster, reports that there is none
exactly when there is none, and reads no byte behind those of the clusters. -/
structure StaysOnVolume (a : Args) (bm : ℕ → UInt8) (s : ℤ) : Prop where
  least : ∀ c, s < c → c < a.cluCnt → full bm c = false →
    (∀ c', s < c' → c' < c → full bm c' = true) → devFreeClusterFrom a bm s = c
  none : devFreeClusterFrom a bm s = -1 ↔ ∀ c, s < c → c < a.cluCnt → full bm c = true
  reads : ∀ k ∈ bytesRead a bm s, k < (a.cluCnt + 7) / 8

section Scan
variable {bm : ℕ → UInt8}

/-- The bytes are read on the way to the result. -/
theorem scanRun_fst (n : ℕ) : ∀ i sc : ℕ, (scanRun bm n i sc).1 = scanFrom bm n i sc := by
  induction n with
  | zero => exact fun _ _ => rfl
  | succ n ih =>
    intro i sc
    unfold scanRun scanFrom
    split_ifs with h255
    · exact ih _ _
    · cases scanByte (bm i) sc with
      | some j => rfl
      | none => exact ih _ _

theorem scanByte_some {x : UInt8} {sc j : ℕ} (h : scanByte x sc = some j) :
    sc ≤ j ∧ j < 8 ∧ bitSet x j = false := by
  unfold scanByte at h
  obtain ⟨i, hi, hj⟩ := List.getElem_of_mem (List.mem_of_find?_eq_some h)
  rw [List.length_drop, List.length_range] at hi
  rw [List.getElem_drop, List.getElem_range] at hj
  have hlt : j < 8 := by omega
  have hbit := List.find?_some h
  rw [bitOf_eq_zero _ _ hlt] at hbit
  exact ⟨by omega, hlt, by simpa using hbit⟩

/-- The scan ends at a clear bit, or has read all its bytes. -/
theorem scanRun_cases (bm : ℕ → UInt8) (n : ℕ) : ∀ i sc : ℕ,
    scanRun bm n i sc = (-1, List.range' i n) ∨
    ∃ k j : ℕ, i ≤ k ∧ k < i + n ∧ j < 8 ∧ (k = i → sc ≤ j) ∧ bitSet (bm k) j = false ∧
      scanRun bm n i sc = (((8 * k + j : ℕ) : ℤ), List.range' i (k + 1 - i)) := by
  induction n with
  | zero => exact fun i sc => Or.inl rfl
  | succ n ih =>
    intro i sc
    -- the scan of the bytes behind the first
    have hrest : ∀ sc', (∀ r l, scanRun bm n (i + 1) sc' = (r, l) →
          scanRun bm (n + 1) i sc = (r, i :: l)) →
        scanRun bm (n + 1) i sc = (-1, List.range' i (n + 1)) ∨
        ∃ k j : ℕ, i ≤ k ∧ k < i + (n + 1) ∧ j < 8 ∧ (k = i → sc ≤ j) ∧ bitSet (bm k) j = false ∧
          scanRun bm (n + 1) i sc = (((8 * k + j : ℕ) : ℤ), List.range' i (k + 1 - i)) := by
      intro sc' hstep
      rcases ih (i + 1) sc' with hnone | ⟨k, j, hik, hkn, hj, -, hbit, hrun⟩
      · exact Or.inl (hstep _ _ hnone)
      · refine Or.inr ⟨k, j, by omega, by omega, hj, fun hki => by omega, hbit, ?_⟩
        rw [hstep _ _ hrun, show k + 1 - i = (k + 1 - (i + 1)) + 1 by omega]
        rfl
    by_cases h255 : bm i = 255
    · refine hrest sc fun r l hrun => ?_
      rw [scanRun, if_pos h255, hrun]
    · cases hbyte : scanByte (bm i) sc with
      | none =>
        refine hrest 0 fun r l hrun => ?_
        rw [scanRun, if_neg h255, hbyte]
        simp only [hrun]
      | some j =>
        obtain ⟨hsc, hj, hbit⟩ := scanByte_some hbyte
        refine Or.inr ⟨i, j, le_refl i, by omega, hj, fun _ => hsc, hbit, ?_⟩
        rw [scanRun, if_neg h255, hbyte]
        simp [Nat.mul_comm]

end Scan

section Search
variable {a : Args} (bm : ℕ → UInt8) {s : ℤ} (h0 : 0 ≤ s) (hs : s < a.cluCnt)
include h0

theorem search_eq : devFreeClusterFrom a bm s =
      (scanRun bm (a.cluCnt - s.toNat / 8) (s.toNat / 8) (s.toNat % 8 + 1)).1 ∧
    bytesRead a bm s = (scanRun bm (a.cluCnt - s.toNat / 8) (s.toNat / 8) (s.toNat % 8 + 1)).2 := by
  obtain ⟨k, rfl⟩ := Int.eq_ofNat_of_zero_le h0
  have hsg : ((k : ℤ).tdiv 8) = ((k / 8 : ℕ) : ℤ) := rfl
  have hmod : ((k : ℤ).tmod 8) = ((k % 8 : ℕ) : ℤ) := rfl
  have hsc : (((k % 8 : ℕ) : ℤ) + 1).toNat = k % 8 + 1 := by omega
  unfold devFreeClusterFrom bytesRead
  simp only [hsg, hmod, hsc, Int.toNat_natCast, scanRun_fst]
  exact ⟨if_neg (by omega), if_neg (by omega)⟩

include hs

/-- **The search ends at a clear bit behind the start**, or has read a byte for every cluster. -/
theorem search_cases : (∀ k ∈ bytesRead a bm s, k < a.cluCnt) ∧
    ((devFreeClusterFrom a bm s = -1 ∧ a.cluCnt - 1 ∈ bytesRead a bm s) ∨
    ∃ c : ℤ, devFreeClusterFrom a bm s = c ∧ s < c ∧ c < 8 * a.cluCnt ∧ full bm c = false ∧
      ∀ k ∈ bytesRead a bm s, (k : ℤ) ≤ c / 8) := by
  obtain ⟨hres, hread⟩ := search_eq (a := a) bm h0
  rcases scanRun_cases bm (a.cluCnt - s.toNat / 8) (s.toNat / 8) (s.toNat % 8 + 1) with
    hrun | ⟨k, j, hik, hkn, hj, hfirst, hbit, hrun⟩
  · rw [hrun] at hres hread
    simp only at hread
    rw [hread]
    refine ⟨fun k hk => ?_, Or.inl ⟨hres, ?_⟩⟩
    · rw [List.mem_range'_1] at hk
      omega
    · rw [List.mem_range'_1]
      omega
  · rw [hrun] at hres hread
    simp only at hread
    rw [hread]
    have hle : ∀ k' ∈ List.range' (s.toNat / 8) (k + 1 - s.toNat / 8), k' ≤ k := fun k' hk' => by
      rw [List.mem_range'_1] at hk'
      omega
    refine ⟨fun k' hk' => ?_, Or.inr ⟨_, hres, ?_, ?_, ?_, fun k' hk' => ?_⟩⟩
    · have := hle k' hk'
      omega
    · rcases Nat.lt_or_ge (s.toNat / 8) k with hk | hk
      · omega
      · have := hfirst (by omega)
        omega
    · omega
    · rw [full_of_nonneg _ (by omega), Int.toNat_natCast, show (8 * k + j) / 8 = k by omega,
        show (8 * k + j) % 8 = j by omega]
      exact hbit
    · have := hle k' hk'
      omega

variable {bm}

omit hs in
/-- A search that finds nothing has seen every bit set, also behind the volume. -/
theorem search_byte (hclear : full bm s = false) (hres : devFreeClusterFrom a bm s = -1) {c : ℤ}
    (hsc : s < c) (hc : c < 8 * a.cluCnt) : full bm c = true := by
  by_contra hne
  obtain ⟨m, hm, hm1, -⟩ := exists_next (a := a) h0 hclear hsc (by omega) (by simpa using hne)
  omega

/-- **The search stays on the volume exactly when there is a cluster left to find**, or the only
cluster of the volume stands in a byte that is full but for it. -/
theorem staysOnVolume_iff (hclear : full bm s = false) : StaysOnVolume a bm s ↔
    (∃ c, s < c ∧ c < a.cluCnt ∧ full bm c = false) ∨
    a.cluCnt = 1 ∧ ∀ c : ℤ, 1 ≤ c → c < 8 → full bm c = true := by
  obtain ⟨hbelow, hcases⟩ := search_cases bm h0 hs
  constructor
  · intro h
    refine or_iff_not_imp_left.mpr fun hno => ?_
    have hres : devFreeClusterFrom a bm s = -1 := h.none.mpr fun c hsc hc => by
      by_contra hne
      exact hno ⟨c, hsc, hc, by simpa using hne⟩
    rcases hcases with ⟨-, hlast⟩ | ⟨c, hc, hsc, -⟩
    · have hread := h.reads _ hlast
      refine ⟨by omega, fun c h1 h8 => ?_⟩
      exact search_byte h0 hclear hres (by omega) (by omega)
    · omega
  · rintro (⟨c, hsc, hc, hcc⟩ | ⟨hone, hfull⟩)
    · obtain ⟨m, hm, hm1, hm2, -⟩ := exists_next h0 hclear hsc (show c / 8 < a.cluCnt by omega) hcc
      refine ⟨fun c' h1 h2 => devFreeClusterFrom_eq h0 hclear h1 (by omega),
        ⟨fun hres => ?_, fun hall => ?_⟩, fun k hk => ?_⟩
      · omega
      · rw [hall c hsc hc] at hcc
        cases hcc
      · rcases hcases with ⟨hres, -⟩ | ⟨c', hc', -, -, -, hread⟩
        · omega
        · have := hread k hk
          omega
    · refine ⟨fun c' h1 h2 => by omega, ⟨fun _ c' h1 h2 => by omega, fun _ => ?_⟩, fun k hk => ?_⟩
      · rcases hcases with ⟨hres, -⟩ | ⟨c, -, hsc, hc8, hcc, -⟩
        · exact hres
        · rw [hfull c (by omega) (by omega)] at hcc
          cases hcc
      · have := hbelow k hk
        omega

end Search

/-! ### Seven clusters -/

/-- A bitmap that has seven clusters full but the root's, and zeros behind them. -/
def sevenTail (k : ℕ) : UInt8 := if k = 0 then 0b01111110 else 0

theorem full_sevenTail {c : ℤ} (h0 : 0 < c) (hc : c < 7) : full sevenTail c = true := by
  interval_cases c <;> rfl

/-- On a volume of seven clusters without a free block behind the root's, the search returns a
cluster 7. -/
theorem not_staysOnVolume_of_clear : ¬ ∀ (a : Args) (bm : ℕ → UInt8) (s : ℤ), 0 ≤ s → s < a.cluCnt →
    full bm s = false → StaysOnVolume a bm s := by
  intro h
  have hstay := h sevenArgs sevenTail 0 (le_refl 0) (by simp [cluCnt_sevenArgs]) rfl
  have hnone : devFreeClusterFrom sevenArgs sevenTail 0 = -1 := hstay.none.mpr fun c h0 hc =>
    full_sevenTail h0 (by rwa [cluCnt_sevenArgs] at hc)
  have hseven : devFreeClusterFrom sevenArgs sevenTail 0 = 7 := by
    unfold devFreeClusterFrom
    rw [cluCnt_sevenArgs]
    rfl
  rw [hseven] at hnone
  cases hnone

/-- A bitmap that has the first three clusters behind the root's full. -/
def sevenFront (k : ℕ) : UInt8 := if k = 0 then 0b01110000 else 0

/-- The search goes past them and stays on the volume. -/
theorem staysOnVolume_sevenFront : StaysOnVolume sevenArgs sevenFront 0 :=
  (staysOnVolume_iff (le_refl 0) (by simp [cluCnt_sevenArgs]) rfl).mpr
    (Or.inl ⟨4, by simp, by simp [cluCnt_sevenArgs], by decide⟩)

end Fcfs.Vol
