import Fcfs.Vol.View

/-! # Sample volumes

Volumes given by their cluster tables and blocks, on the smallest device the formatter makes a
volume with a bitmap for: seven clusters with blocks of 1024 bytes. Statements about the driver
that need a volume to speak of take it from here. -/

namespace Fcfs.Vol

open Lib.Bytes Persist

/-- The blocks of a volume with the given cluster tables and data. -/
def sampleBlk (h : FcfsHead) (T : ℕ → Fin 7 → BlkEnt) (D : ℕ → ℕ → Buf) (cid bid : ℕ) : Buf :=
  if bid = 0 then { hashsum := getHashsum (imageArgs h) ⟨0, T cid⟩, entrs := T cid : BlockList }.bytes
  else D cid bid

/-- The device of a volume with the given cluster tables and data. -/
def sampleDev (h : FcfsHead) (T : ℕ → Fin 7 → BlkEnt) (D : ℕ → ℕ → Buf) : Dev :=
  image h (sampleBlk h T D)

section Sample
variable {h : FcfsHead} (hg : Geo h) (T : ℕ → Fin 7 → BlkEnt) (D : ℕ → ℕ → Buf)
include hg

theorem mounted_sample : Mounted (imageArgs h) (sampleDev h T D) := ⟨hg, io_image _ _⟩

theorem tab_sample {c : ℤ} (h0 : 0 ≤ c) (hc : c < (imageArgs h).cluCnt) :
    tab (imageArgs h) (sampleDev h T D) c = T c.toNat := by
  have hin : InVol (imageArgs h) c 0 := ⟨h0, hc, by decide⟩
  have hL := hg.le_lblkSz
  have hdec : BlockList.ofBytes (cut (imageArgs h).lblkSz
      (shift (sampleDev h T D).bytes (blkAddr (imageArgs h) c 0))) =
      ⟨getHashsum (imageArgs h) ⟨0, T c.toNat⟩, T c.toNat⟩ := by
    refine Eq.trans (BlockList.ofBytes_congr fun i hi => ?_) (BlockList.ofBytes_bytes _)
    unfold sizeofBlockList at hi
    have hi' : i < (imageArgs h).lblkSz := lt_of_lt_of_le hi (le_trans (by decide) hL)
    rw [cut_of_lt _ hi', shift_apply]
    exact image_blkAddr hg.toLayout (by decide) hi'
  unfold tab ctable devReadCtable
  rw [if_pos ⟨h0, hc⟩, (mounted_sample hg T D).devReadBlock_eq hin]
  simp only [Bool.false_eq_true, if_false, Option.bind_eq_bind, Option.bind_some, Option.getD_some]
  rw [hdec]
  simp [getHashsum]

theorem data_sample {c : ℤ} {bid : ℕ} (hin : InVol (imageArgs h) c bid) (hb : 1 ≤ bid) :
    data (imageArgs h) (sampleDev h T D) c bid = cut h.lblkSz (D c.toNat bid) := by
  unfold data
  rw [if_pos ⟨hin, hb⟩]
  refine cut_congr fun i hi => ?_
  have hblk : sampleBlk h T D c.toNat bid = D c.toNat bid := if_neg (by omega)
  rw [shift_apply, ← hblk]
  exact image_blkAddr hg.toLayout hin.2.2 hi

end Sample

/-- The header of a device of 4482 sectors of 512 bytes. -/
def sevenHead : FcfsHead := fmtrHead 512 4482 0 fun _ => 0

theorem geo_sevenHead : Geo sevenHead where
  toLayout := layout_fmtrHead (by decide) (by decide) (by unfold Fmtr.Geometry.Fits; decide)
  exact := by decide

/-- The arguments of a driver on it. -/
def sevenArgs : Args := imageArgs sevenHead

theorem cluCnt_sevenArgs : sevenArgs.cluCnt = 7 := by decide

theorem lblkSz_sevenArgs : sevenArgs.lblkSz = 1024 := by decide

/-- The cluster tables of a formatted volume: nothing is owned, and the entries of cluster 0 are
numbered. -/
def freshTab (c : ℕ) (i : Fin 7) : BlkEnt := if c = 0 then ⟨0, UInt32.ofNat i⟩ else ⟨0, 0⟩

/-- The memory of a driver with empty caches on a volume of seven clusters with the given cluster
tables, blocks, first byte of the bitmap and table entries. -/
def sevenSt (T : ℕ → Fin 7 → BlkEnt) (D : ℕ → ℕ → Buf) (bm : UInt8) (entrs : ℤ → TableEntry) : St where
  dev := sampleDev sevenHead T D
  fsBitmap := fun k => if k = 0 then bm else 0
  fsTable := ⟨UInt64.ofNat sizeofTable, entrs⟩
  clrsCache := ⟨-1, fun _ => 0, fun _ => 0, 0, 0⟩
  mapSeq := fun _ => none
  mapFid := fun _ => none

section Seven
variable (T : ℕ → Fin 7 → BlkEnt) (D : ℕ → ℕ → Buf) (bm : UInt8) (entrs : ℤ → TableEntry)

theorem mounted_sevenSt : Mounted sevenArgs (sevenSt T D bm entrs).dev :=
  mounted_sample geo_sevenHead _ _

theorem tab_sevenSt {c : ℤ} (h0 : 0 ≤ c) (hc : c < 7) :
    tab sevenArgs (sevenSt T D bm entrs).dev c = T c.toNat :=
  tab_sample geo_sevenHead _ _ h0 (lt_of_lt_of_eq hc (congrArg Nat.cast cluCnt_sevenArgs).symm)

theorem data_sevenSt {c : ℤ} {b : ℕ} (h0 : 0 ≤ c) (hc : c < 7) (h1 : 1 ≤ b) (h7 : b ≤ 7) :
    data sevenArgs (sevenSt T D bm entrs).dev c b = cut 1024 (D c.toNat b) :=
  data_sample geo_sevenHead _ _
    ⟨h0, lt_of_lt_of_eq hc (congrArg Nat.cast cluCnt_sevenArgs).symm, Nat.lt_succ_of_le h7⟩ h1

end Seven

/-- The root's entry and the given ones. -/
def rootAnd (entrs : ℤ → TableEntry) (f : ℤ) : TableEntry := if f = 0 then ⟨1, fun _ => 0⟩ else entrs f

/-- The memory of a driver that has just mounted a formatted volume of seven clusters. -/
def sevenFresh : St := sevenSt freshTab (fun _ _ _ => 0) 0 (rootAnd fun _ => TableEntry.zero)

theorem mounted_sevenFresh : Mounted sevenArgs sevenFresh.dev := mounted_sevenSt _ _ _ _

end Fcfs.Vol
