import Fcfs.Fmtr.Head
import Mathlib.Data.Set.Lattice
import Mathlib.Order.CompletePartialOrder
import Mathlib.Order.Interval.Set.Disjoint

/-! # When the formatter's geometry is sound

The data area is meant to begin behind header, bitmap and table, the bitmap to have a bit for every
cluster, and every cluster to lie on the device. Two roundings of `main` stand against it. The
bitmap length is the ceiling of a quotient whose numerator `clu_cnt / 8` was already rounded down,
so up to seven clusters go without a byte. And the cluster count leaves one block for the header
while `dta_beg` skips two, so the last cluster ends one block late when no block is left over.

With `n` blocks behind header and table, `n = q * 64 * lblk_sz + r`, both come down to `q` and `r`
(`geometrySound_iff`). -/

namespace Fcfs.Fmtr.Geometry

open Fcfs

/-- The blocks of the header. -/
def headRegion : Set ℕ := Set.Ico 0 1

/-- The blocks of the bitmap. -/
def bitmapRegion (h : FcfsHead) : Set ℕ := Set.Ico 1 (1 + h.bmpLen.toNat)

/-- The blocks of the table. -/
def tableRegion (h : FcfsHead) : Set ℕ :=
  Set.Ico (1 + h.bmpLen.toNat) (1 + h.bmpLen.toNat + h.tblLen.toNat)

/-- **A sound geometry.** -/
structure GeometrySound (h : FcfsHead) : Prop where
  disjoint : [headRegion, bitmapRegion h, tableRegion h].Pairwise Disjoint
  before : ∀ R ∈ [headRegion, bitmapRegion h, tableRegion h], ∀ blk ∈ R, blk < h.dtaBeg.toNat
  table : sizeofTable ≤ h.tblLen.toNat * h.lblkSz
  bitmap : h.cluCnt.toNat ≤ 8 * h.bmpLen.toNat * h.lblkSz
  device : h.dtaBeg.toNat + h.cluCnt.toNat * h.cluSz.toNat ≤ h.blkCnt.toNat

/-- The device has room for header, bitmap, table and one cluster. -/
def Fits (h : FcfsHead) : Prop :=
  1 + h.tblLen.toNat + h.bmpLen.toNat + h.cluSz.toNat ≤ h.blkCnt.toNat

/-- The blocks behind header and table. -/
def behind (secSz secCnt : ℕ) : ℕ := secCnt / 2 - (sizeofTable / (2 * secSz) + 1) - 1

/-- The blocks of the bitmap for `n` blocks behind header and table: one for every `64 * lblk_sz` of
them, and one more when at least 64 are left over. -/
def bmpBlks (secSz n : ℕ) : ℕ := n / (128 * secSz) + if 64 ≤ n % (128 * secSz) then 1 else 0

/-- The sector counts for which both roundings come out right: a block is left over behind the last
cluster, and the blocks left over by the bitmap are enough for a bitmap block of their own or too
few to make a cluster. -/
def Rounds (secSz secCnt : ℕ) : Prop :=
  let n := behind secSz secCnt
  (n - bmpBlks secSz n) % 8 ≠ 0 ∧
    (64 ≤ n % (128 * secSz) ∨ n % (128 * secSz) < n / (128 * secSz) + 8)

instance (secSz secCnt : ℕ) : Decidable (Rounds secSz secCnt) := by
  unfold Rounds; infer_instance

variable {secSz : UInt32} (secCnt : UInt32) (now : UInt64) (label : Fin 255 → UInt8)

/-! ### The two roundings -/

theorem bmpBlks_le (secSz n : ℕ) (h : 0 < secSz) : bmpBlks secSz n ≤ n := by
  have hdiv : 128 * secSz * (n / (128 * secSz)) + n % (128 * secSz) = n := Nat.div_add_mod n _
  have hq : n / (128 * secSz) ≤ 128 * secSz * (n / (128 * secSz)) :=
    Nat.le_mul_of_pos_left _ (by omega)
  unfold bmpBlks
  split_ifs <;> omega

theorem ceilDiv_eq_bmpBlks (secSz n : ℕ) (h : 0 < secSz) :
    ceilDiv (n / 8 / 8) (2 * secSz) = bmpBlks secSz n := by
  have hr : n % (128 * secSz) < 128 * secSz := Nat.mod_lt _ (by omega)
  have hn : n / 8 / 8 = 2 * secSz * (n / (128 * secSz)) + n % (128 * secSz) / 64 := by
    have hdiv : 128 * secSz * (n / (128 * secSz)) + n % (128 * secSz) = n := Nat.div_add_mod n _
    have h64 : 128 * secSz * (n / (128 * secSz)) = 64 * (2 * secSz * (n / (128 * secSz))) := by ring
    omega
  have hk : n % (128 * secSz) / 64 < 2 * secSz := by omega
  unfold ceilDiv bmpBlks
  rw [hn, Nat.add_assoc, Nat.add_sub_assoc (by omega), Nat.mul_add_div (by omega)]
  congr 1
  split_ifs with hge
  · exact Nat.div_eq_of_lt_le (by omega) (by omega)
  · exact Nat.div_eq_of_lt (by omega)

theorem room_iff (secSz n : ℕ) (h : 0 < secSz) :
    (n - bmpBlks secSz n) / 8 ≤ 8 * bmpBlks secSz n * (2 * secSz) ↔
      64 ≤ n % (128 * secSz) ∨ n % (128 * secSz) < n / (128 * secSz) + 8 := by
  have hr : n % (128 * secSz) < 128 * secSz := Nat.mod_lt _ (by omega)
  have hdiv : 128 * secSz * (n / (128 * secSz)) + n % (128 * secSz) = n := Nat.div_add_mod n _
  have hle := bmpBlks_le secSz n h
  have hmul : 8 * bmpBlks secSz n * (2 * secSz) * 8 = 128 * secSz * bmpBlks secSz n := by ring
  rw [← Nat.lt_succ_iff, Nat.div_lt_iff_lt_mul (by omega), Nat.succ_mul, hmul]
  by_cases hge : 64 ≤ n % (128 * secSz)
  · have hb : bmpBlks secSz n = n / (128 * secSz) + 1 := by simp [bmpBlks, hge]
    simp only [hge, true_or, iff_true]
    rw [hb, Nat.mul_add]
    omega
  · have hb : bmpBlks secSz n = n / (128 * secSz) := by simp [bmpBlks, hge]
    simp only [hge, false_or]
    rw [hb] at hle ⊢
    omega

/-! ### The fields as numbers -/

theorem lblkSz_fmtrHead (hs : secSz.toNat ≤ 65535) :
    (fmtrHead secSz secCnt now label).lblkSz = 2 * secSz.toNat := by
  simp [fmtrHead, FcfsHead.lblkSz, blockSize]
  omega

theorem cluSz_fmtrHead : (fmtrHead secSz secCnt now label).cluSz.toNat = 8 := rfl

theorem blkCnt_fmtrHead : (fmtrHead secSz secCnt now label).blkCnt.toNat = secCnt.toNat / 2 := by
  simp [fmtrHead, blockSize]

theorem tblLen_fmtrHead (h0 : 512 ≤ secSz.toNat) (hs : secSz.toNat ≤ 65535) :
    (fmtrHead secSz secCnt now label).tblLen.toNat = sizeofTable / (2 * secSz.toNat) + 1 := by
  have hle : sizeofTable / (2 * secSz.toNat) ≤ sizeofTable / 1024 :=
    Nat.div_le_div_left (by omega) (by omega)
  have h16 : secSz.toNat % 65536 = secSz.toNat := by omega
  simp [fmtrHead, blockSize, h16]
  norm_num [sizeofTable] at hle ⊢
  omega

theorem behind_le (secSz secCnt : ℕ) : behind secSz secCnt ≤ secCnt / 2 :=
  (Nat.sub_le _ _).trans (Nat.sub_le _ _)

theorem toNat_sub_of_toNat_le {x y : UInt64} (h : y.toNat ≤ x.toNat) :
    (x - y).toNat = x.toNat - y.toNat :=
  UInt64.toNat_sub_of_le _ _ (UInt64.le_iff_toNat_le.mpr h)

/-- `blk_cnt - tbl_len - 1` when the header and the table fit. -/
theorem toNat_behind (h0 : 512 ≤ secSz.toNat) (hs : secSz.toNat ≤ 65535)
    (hfit : 1 + (fmtrHead secSz secCnt now label).tblLen.toNat ≤ secCnt.toNat / 2) :
    (secCnt.toUInt64 / UInt64.ofNat blockSize -
      (fmtrHead secSz secCnt now label).tblLen.toUInt64 - 1).toNat =
        behind secSz.toNat secCnt.toNat := by
  have htbl := tblLen_fmtrHead secCnt now label h0 hs
  have hblk : (secCnt.toUInt64 / UInt64.ofNat blockSize).toNat = secCnt.toNat / 2 := by
    simp [blockSize]
  generalize (fmtrHead secSz secCnt now label).tblLen = t at *
  have ht : t.toUInt64.toNat = t.toNat := UInt16.toNat_toUInt64 t
  have hsub := toNat_sub_of_toNat_le (x := secCnt.toUInt64 / UInt64.ofNat blockSize)
    (y := t.toUInt64) (by omega)
  rw [toNat_sub_of_toNat_le (by rw [hsub, UInt64.toNat_one]; omega), hsub, hblk, ht, htbl]
  rfl

theorem bmpLen_fmtrHead (h0 : 512 ≤ secSz.toNat) (hs : secSz.toNat ≤ 65535)
    (hfit : 1 + (fmtrHead secSz secCnt now label).tblLen.toNat ≤ secCnt.toNat / 2) :
    (fmtrHead secSz secCnt now label).bmpLen.toNat =
      bmpBlks secSz.toNat (behind secSz.toNat secCnt.toNat) := by
  have hlt : secCnt.toNat < 2 ^ 32 := secCnt.toNat_lt
  have hb := bmpBlks_le secSz.toNat (behind secSz.toNat secCnt.toNat) (by omega)
  have hn := behind_le secSz.toNat secCnt.toNat
  have h16 : secSz.toUInt16.toNat = secSz.toNat := by simp; omega
  have hceil : (fmtrHead secSz secCnt now label).bmpLen = UInt32.ofNat (ceilDiv
      (((secCnt.toUInt64 / UInt64.ofNat blockSize -
        (fmtrHead secSz secCnt now label).tblLen.toUInt64 - 1) /
          UInt64.ofNat bloksPerCluster).toNat / 8) (blockSize * secSz.toUInt16.toNat)) := rfl
  have h8 : (UInt64.ofNat bloksPerCluster).toNat = 8 := rfl
  rw [hceil, UInt64.toNat_div, toNat_behind secCnt now label h0 hs hfit, h8, h16, blockSize,
    ceilDiv_eq_bmpBlks _ _ (by omega), UInt32.toNat_ofNat']
  exact Nat.mod_eq_of_lt (by omega)

/-- The number of clusters, when the header and the table fit. -/
theorem cluCnt_of_behind (h0 : 512 ≤ secSz.toNat) (hs : secSz.toNat ≤ 65535)
    (hfit : 1 + (fmtrHead secSz secCnt now label).tblLen.toNat ≤ secCnt.toNat / 2) :
    (fmtrHead secSz secCnt now label).cluCnt.toNat =
      (behind secSz.toNat secCnt.toNat - bmpBlks secSz.toNat (behind secSz.toNat secCnt.toNat)) / 8 := by
  have htbl := tblLen_fmtrHead secCnt now label h0 hs
  have hbmp := bmpLen_fmtrHead secCnt now label h0 hs hfit
  have hbeh := toNat_behind secCnt now label h0 hs hfit
  have hle := bmpBlks_le secSz.toNat (behind secSz.toNat secCnt.toNat) (by omega)
  have hclu : (fmtrHead secSz secCnt now label).cluCnt =
      (secCnt.toUInt64 / UInt64.ofNat blockSize -
        (fmtrHead secSz secCnt now label).tblLen.toUInt64 -
        (fmtrHead secSz secCnt now label).bmpLen.toUInt64 - 1) / UInt64.ofNat bloksPerCluster := rfl
  have hblk : (secCnt.toUInt64 / UInt64.ofNat blockSize).toNat = secCnt.toNat / 2 := by
    simp [blockSize]
  have h8 : (UInt64.ofNat bloksPerCluster).toNat = 8 := rfl
  rw [hclu, UInt64.toNat_div, h8]
  generalize (fmtrHead secSz secCnt now label).tblLen = t at *
  generalize (fmtrHead secSz secCnt now label).bmpLen = b at *
  have ht : t.toUInt64.toNat = t.toNat := UInt16.toNat_toUInt64 t
  have hb : b.toUInt64.toNat = b.toNat := UInt32.toNat_toUInt64 b
  have hleft : behind secSz.toNat secCnt.toNat = secCnt.toNat / 2 - t.toNat - 1 := by
    rw [htbl]
    rfl
  have hsub := toNat_sub_of_toNat_le (x := secCnt.toUInt64 / UInt64.ofNat blockSize)
    (y := t.toUInt64) (by omega)
  have hsub1 := toNat_sub_of_toNat_le (y := 1)
    (x := secCnt.toUInt64 / UInt64.ofNat blockSize - t.toUInt64) (by rw [hsub, UInt64.toNat_one]; omega)
  have hsub2 := toNat_sub_of_toNat_le (y := b.toUInt64)
    (x := secCnt.toUInt64 / UInt64.ofNat blockSize - t.toUInt64) (by omega)
  rw [UInt64.toNat_one, hbeh] at hsub1
  rw [toNat_sub_of_toNat_le (by rw [hsub2, UInt64.toNat_one]; omega), hsub2, UInt64.toNat_one, hb,
    hbmp, hsub1]
  omega

/-- The number of clusters, when everything in front of them fits. -/
theorem cluCnt_fmtrHead (h0 : 512 ≤ secSz.toNat) (hs : secSz.toNat ≤ 65535)
    (hfit : Fits (fmtrHead secSz secCnt now label)) :
    (fmtrHead secSz secCnt now label).cluCnt.toNat =
      (behind secSz.toNat secCnt.toNat - bmpBlks secSz.toNat (behind secSz.toNat secCnt.toNat)) / 8 := by
  unfold Fits at hfit
  rw [blkCnt_fmtrHead, cluSz_fmtrHead] at hfit
  exact cluCnt_of_behind secCnt now label h0 hs (by omega)

/-- When not even the header and the table fit, the number of clusters wraps. -/
theorem le_cluCnt_of_lt (hlt : secCnt.toNat / 2 < 1 + (fmtrHead secSz secCnt now label).tblLen.toNat) :
    2 ^ 60 ≤ (fmtrHead secSz secCnt now label).cluCnt.toNat := by
  have hclu : (fmtrHead secSz secCnt now label).cluCnt =
      (secCnt.toUInt64 / UInt64.ofNat blockSize -
        (fmtrHead secSz secCnt now label).tblLen.toUInt64 -
        (fmtrHead secSz secCnt now label).bmpLen.toUInt64 - 1) / UInt64.ofNat bloksPerCluster := rfl
  have hblk : (secCnt.toUInt64 / UInt64.ofNat blockSize).toNat = secCnt.toNat / 2 := by
    simp [blockSize]
  have h8 : (UInt64.ofNat bloksPerCluster).toNat = 8 := rfl
  rw [hclu, UInt64.toNat_div, h8]
  generalize (fmtrHead secSz secCnt now label).tblLen = t at *
  generalize (fmtrHead secSz secCnt now label).bmpLen = b at *
  have ht : t.toUInt64.toNat = t.toNat := UInt16.toNat_toUInt64 t
  have hb : b.toUInt64.toNat = b.toNat := UInt32.toNat_toUInt64 b
  have ht16 := t.toNat_lt
  have hb32 := b.toNat_lt
  rw [UInt64.toNat_sub, UInt64.toNat_sub, UInt64.toNat_sub, UInt64.toNat_one, hblk, ht, hb]
  omega

/-- A volume with a cluster has room for everything in front of it, unless the counts wrap. -/
theorem fits_of_cluCnt (h0 : 512 ≤ secSz.toNat) (hs : secSz.toNat ≤ 65535)
    (hclu : (fmtrHead secSz secCnt now label).cluCnt.toNat ≠ 0)
    (hlt : (fmtrHead secSz secCnt now label).cluCnt.toNat < 2 ^ 60) :
    Fits (fmtrHead secSz secCnt now label) := by
  have hfit : 1 + (fmtrHead secSz secCnt now label).tblLen.toNat ≤ secCnt.toNat / 2 := by
    by_contra hno
    have := le_cluCnt_of_lt secCnt now label (Nat.lt_of_not_le hno)
    omega
  have htbl := tblLen_fmtrHead secCnt now label h0 hs
  have hcnt := cluCnt_of_behind secCnt now label h0 hs hfit
  have hbmp := bmpLen_fmtrHead secCnt now label h0 hs hfit
  unfold Fits
  rw [blkCnt_fmtrHead, cluSz_fmtrHead, hbmp]
  unfold behind at hcnt ⊢
  omega

theorem dtaBeg_fmtrHead (hfit : Fits (fmtrHead secSz secCnt now label)) :
    (fmtrHead secSz secCnt now label).dtaBeg.toNat =
      2 + (fmtrHead secSz secCnt now label).bmpLen.toNat +
        (fmtrHead secSz secCnt now label).tblLen.toNat := by
  have hlt : secCnt.toNat < 2 ^ 32 := secCnt.toNat_lt
  have hdta : (fmtrHead secSz secCnt now label).dtaBeg =
      2 + (fmtrHead secSz secCnt now label).bmpLen +
        (fmtrHead secSz secCnt now label).tblLen.toUInt32 := rfl
  unfold Fits at hfit
  rw [blkCnt_fmtrHead, cluSz_fmtrHead] at hfit
  rw [hdta, UInt32.toNat_add, UInt32.toNat_add, UInt16.toNat_toUInt32]
  have h2 : (2 : UInt32).toNat = 2 := rfl
  omega

/-! ### Soundness -/

/-- The regions follow one another and end before the data area. -/
theorem regions_fmtrHead (hfit : Fits (fmtrHead secSz secCnt now label)) :
    [headRegion, bitmapRegion (fmtrHead secSz secCnt now label),
      tableRegion (fmtrHead secSz secCnt now label)].Pairwise Disjoint ∧
    ∀ R ∈ [headRegion, bitmapRegion (fmtrHead secSz secCnt now label),
      tableRegion (fmtrHead secSz secCnt now label)],
      ∀ blk ∈ R, blk < (fmtrHead secSz secCnt now label).dtaBeg.toNat := by
  have hdta := dtaBeg_fmtrHead secCnt now label hfit
  constructor
  · simp only [List.pairwise_cons, List.mem_cons, List.not_mem_nil, or_false, forall_eq_or_imp,
      forall_eq, headRegion, bitmapRegion, tableRegion, Set.disjoint_left, Set.mem_Ico]
    simp only [IsEmpty.forall_iff, implies_true, List.Pairwise.nil, and_true]
    refine ⟨⟨?_, ?_⟩, ?_⟩ <;> intro blk <;> omega
  · simp only [List.mem_cons, List.not_mem_nil, or_false, forall_eq_or_imp, forall_eq, headRegion,
      bitmapRegion, tableRegion, Set.mem_Ico]
    refine ⟨?_, ?_, ?_⟩ <;> intro blk <;> omega

/-- **The formatter's geometry is sound exactly when both roundings come out right.** -/
theorem geometrySound_iff (h0 : 512 ≤ secSz.toNat) (hs : secSz.toNat ≤ 65535)
    (hfit : Fits (fmtrHead secSz secCnt now label)) :
    GeometrySound (fmtrHead secSz secCnt now label) ↔ Rounds secSz.toNat secCnt.toNat := by
  have hblk : (fmtrHead secSz secCnt now label).blkCnt.toNat = secCnt.toNat / 2 :=
    blkCnt_fmtrHead secCnt now label
  have hfit' := hfit
  unfold Fits at hfit'
  rw [hblk, cluSz_fmtrHead] at hfit'
  have hlblk := lblkSz_fmtrHead secCnt now label hs
  have htbl := tblLen_fmtrHead secCnt now label h0 hs
  have hbmp := bmpLen_fmtrHead secCnt now label h0 hs (by omega)
  have hclu := cluCnt_fmtrHead secCnt now label h0 hs hfit
  have hdta := dtaBeg_fmtrHead secCnt now label hfit
  obtain ⟨hdisj, hbefore⟩ := regions_fmtrHead secCnt now label hfit
  have htable : sizeofTable ≤ (fmtrHead secSz secCnt now label).tblLen.toNat *
      (fmtrHead secSz secCnt now label).lblkSz := by
    rw [htbl, hlblk, Nat.mul_comm]
    exact (Nat.lt_mul_div_succ sizeofTable (by omega)).le
  have hroom := room_iff secSz.toNat (behind secSz.toNat secCnt.toNat) (by omega)
  have hleft : behind secSz.toNat secCnt.toNat + (fmtrHead secSz secCnt now label).tblLen.toNat + 1 =
      secCnt.toNat / 2 := by
    rw [htbl] at hfit' ⊢
    unfold behind
    omega
  rw [← hbmp] at hclu hroom
  unfold Rounds
  simp only
  rw [← hroom, ← hbmp]
  constructor
  · rintro ⟨-, -, -, hbitmap, hdevice⟩
    rw [hdta, hclu, cluSz_fmtrHead, hblk] at hdevice
    rw [hclu, hlblk] at hbitmap
    exact ⟨by omega, hbitmap⟩
  · rintro ⟨hmod, hbitmap⟩
    refine ⟨hdisj, hbefore, htable, ?_, ?_⟩
    · rw [hclu, hlblk]
      exact hbitmap
    · rw [hdta, hclu, cluSz_fmtrHead, hblk]
      omega

/-- A device of 2242 blocks and one cluster, whose last block is missing. -/
theorem not_geometrySound_4484 :
    ¬ ∀ secSz secCnt : UInt32, 512 ≤ secSz.toNat → secSz.toNat ≤ 65535 →
      Fits (fmtrHead secSz secCnt 0 fun _ => 0) →
      GeometrySound (fmtrHead secSz secCnt 0 fun _ => 0) := by
  intro h
  have hsound := (h 512 4484 (by decide) (by decide) (by unfold Fits; decide)).device
  revert hsound
  decide

/-- One block more makes the geometry sound. -/
theorem geometrySound_4486 : GeometrySound (fmtrHead 512 4486 0 fun _ => 0) :=
  (geometrySound_iff 4486 0 (fun _ => 0) (by decide) (by decide) (by unfold Fits; decide)).mpr (by decide)

end Fcfs.Fmtr.Geometry
