import Fcfs.Fmtr.Mounts
import Fcfs.Vol.Fresh
import Fcfs.Vol.Front

/-! # The volume the formatter leaves

What `main` of `fmtr/fcfsfmt.c` writes is a volume in order without files: the memory that belongs to it
(`formattedSt`) is freshly formatted (`Formats.formatted`), and all of its metadata stands on the device
(`Formats.synced`). -/

namespace Fcfs.Fmtr.Volume

open Fcfs Fcfs.Vol Fcfs.Fmtr.Geometry Fcfs.Fmtr.Address Fcfs.Fmtr.Mounts
open Lib.Bytes

/-- **The formatter is run on a device the driver can use**: its sectors are of a size that the header can
say and the cipher can cut, the regions and the clusters fit, the bitmap has a bit for every cluster, seek
positions are exact, no write stops short, and no old cluster table passes for a new one. -/
structure Formats (a : Args) (secSz secCnt : UInt32) (now : UInt64) (label : Fin 255 → UInt8) (d : Dev) : Prop where
  head : a.fsHead = fmtrHead secSz secCnt now label
  sector : 512 ≤ secSz.toNat
  half : secSz.toNat ≤ 65535
  unit : 16 ∣ secSz.toNat
  fits : Fits a.fsHead
  bitmap : a.cluCnt ≤ 8 * a.fsHead.bmpLen.toNat * a.lblkSz
  exact : volLen a.fsHead < 2 ^ 31
  io : IoOk (volLen a.fsHead) d
  room : secSz.toNat * secCnt.toNat ≤ d.size
  old : NoOldTables a d
  ecb : Ecb a.ciph

/-- The memory that belongs to what the formatter writes. -/
def formattedSt (d : Dev) (now : UInt64) : St := mountedSt d (fun _ => 0) (fmtrTable now)

section Formats
variable {a : Args} {secSz secCnt : UInt32} {now : UInt64} {label : Fin 255 → UInt8} {d d' : Dev} {junk : Buf}

theorem Formats.layout (h : Formats a secSz secCnt now label d) : Mounts.Layout a secSz.toNat :=
  Mounts.layout_fmtrHead h.head h.sector h.half h.unit h.fits

theorem Formats.regions (h : Formats a secSz secCnt now label d) : Regions a.fsHead := by
  have hl : Vol.Layout (fmtrHead secSz secCnt now label) :=
    Persist.layout_fmtrHead h.sector h.half (h.head ▸ h.fits)
  exact ⟨h.head ▸ hl, h.bitmap⟩

theorem Formats.now_eq (h : Formats a secSz secCnt now label d) : a.fsHead.ctime = now := by
  rw [h.head]
  rfl

theorem Formats.sector_eq (h : Formats a secSz secCnt now label d) :
    a.fsHead.phyBlkSz.toNat = secSz.toNat := by
  have hlt := h.half
  rw [h.head]
  show secSz.toUInt16.toNat = secSz.toNat
  simp
  omega

theorem Formats.lastBelow (h : Formats a secSz secCnt now label d) : LastBelow a.fsHead := by
  intro _
  refine lt_of_le_of_lt (Nat.mul_le_mul_right _ ?_) h.exact
  omega

/-- **The formatter completes.** -/
theorem Formats.completes (h : Formats a secSz secCnt now label d) (junk : Buf) :
    ∃ d', fmtrMain a.ciph junk secSz secCnt now label d = some d' := by
  have hdata := h.layout.data
  have hclu : 0 < a.fsHead.cluCnt.toNat := h.layout.clu
  have hle : a.fsHead.dtaBeg.toNat * a.fsHead.lblkSz + 8 * a.fsHead.lblkSz ≤ volLen a.fsHead := by
    rw [← Nat.add_mul]
    exact Nat.mul_le_mul_right _ (by unfold bloksPerCluster; omega)
  exact fmtrMain_completes junk h.head (by omega) (by have := h.exact; omega) (h.io.mono hle)

theorem Formats.written (h : Formats a secSz secCnt now label d)
    (hmain : fmtrMain a.ciph junk secSz secCnt now label d = some d') :
    Written a.ciph junk a.fsHead now d d' := by
  have hdata := h.layout.data
  have hblk : a.fsHead.lblkSz = 2 * secSz.toNat := h.layout.blk
  have hsec := h.sector
  have hin : InVol a 0 0 := ⟨le_refl 0, by have := h.layout.clu; omega, by decide⟩
  exact fmtrMain_written h.head (by omega) (by omega) (h.lastBelow.blkAddr_lt hin) hmain

/-- A write does not change which of the next ones stop short. -/
theorem putAll_short {pos len : ℕ} {b : Buf} (h : putAll d pos b len = some d') : d'.short = d.short := by
  unfold putAll at h
  dsimp only at h
  split_ifs at h
  obtain rfl := Option.some.inj h
  rfl

theorem fmtrMain_short {c : Cipher} (h : fmtrMain c junk secSz secCnt now label d = some d') :
    d'.short = d.short := by
  unfold fmtrMain at h
  dsimp only at h
  obtain ⟨d1, h1, h⟩ := Option.bind_eq_some_iff.mp h
  rcases ite_eq_iff.mp h with ⟨-, h⟩ | ⟨-, h⟩
  · cases h
  obtain ⟨d2, h2, h⟩ := Option.bind_eq_some_iff.mp h
  rcases ite_eq_iff.mp h with ⟨-, h⟩ | ⟨-, h⟩
  · cases h
  obtain ⟨d3, h3, h⟩ := Option.bind_eq_some_iff.mp h
  obtain ⟨d4, h4, h5⟩ := Option.bind_eq_some_iff.mp h
  rw [putAll_short h5, putAll_short h4, putAll_short h3, putAll_short h2, putAll_short h1]

theorem Formats.mounted (h : Formats a secSz secCnt now label d)
    (hmain : fmtrMain a.ciph junk secSz secCnt now label d = some d') : Mounted a d' := by
  refine ⟨⟨h.regions.toLayout, h.exact⟩, ?_, fun k => ?_⟩
  · rw [(h.written hmain).size]
    exact h.io.room
  · rw [fmtrMain_short hmain]
    exact h.io.full k

/-- **What the formatter leaves is a volume without files.** -/
theorem Formats.formatted (h : Formats a secSz secCnt now label d)
    (hmain : fmtrMain a.ciph junk secSz secCnt now label d = some d') : Formatted a (formattedSt d' now) := by
  have hl := h.layout
  have hw := h.written hmain
  have hm := h.mounted hmain
  have hclu := hl.clu
  have hblk : a.fsHead.blkCnt.toNat * a.lblkSz ≤ d.size := by
    rw [hl.blk, h.head, blkCnt_fmtrHead, ← Nat.mul_assoc, Nat.mul_comm]
    exact (Nat.mul_le_mul_left _ (Nat.div_mul_le_self _ 2)).trans h.room
  have hzero : leNat 4 (fun _ => 0) = 0 := by decide
  refine ⟨hm, hclu, fun c _ _ => full_zero c, fun i => ?_, fun c h1 hc i => ?_, ⟨rfl, rfl⟩, fun f h0 _ => ?_,
    ?_, rfl, rfl, rfl, fun _ => rfl, fun _ => rfl⟩
  · have hread := devReadCtable_root hl hw h.lastBelow h.now_eq
    show tab a d' 0 i = _
    unfold tab ctable
    rw [if_pos ⟨le_refl 0, by omega⟩, hread]
    rfl
  · have hread := devReadCtable_rest hl hw h.lastBelow h.old h1 hc hblk
    show (tab a d' c i).fid = 0
    unfold tab ctable
    rw [if_pos ⟨by omega, hc⟩, hread]
    rfl
  · have hent : (fmtrTable now).entrs f = TableEntry.zero := if_neg (by omega)
    show ((fmtrTable now).entrs f).Blank
    rw [hent]
    exact TableEntry.blank_zero
  · have hin : InVol a 0 1 := ⟨le_refl 0, by omega, by decide⟩
    have hread := devReadBlock_root hl hw h.lastBelow h.ecb (le_refl 1) (by decide)
    rw [hm.devReadBlock_eq hin, if_pos rfl] at hread
    show leNat 4 (a.ciph.decrypt a.lblkSz (data a d' 0 1)) = 0
    unfold data
    rw [if_pos ⟨hin, le_refl 1⟩, Option.some.inj hread]
    exact hzero

/-- **All of its metadata stands on the device.** -/
theorem Formats.synced (h : Formats a secSz secCnt now label d)
    (hmain : fmtrMain a.ciph junk secSz secCnt now label d = some d') : Synced a (formattedSt d' now) := by
  have hw := h.written hmain
  have hhash : a.fsHead.hashsum = UInt64.ofNat sizeofHead ^^^ a.fsHead.ctime := by
    rw [h.head]
    rfl
  have hbytes : cut sizeofTable (fmtrTable now).bytes = (fmtrTable now).bytes := by
    funext k
    by_cases hk : k < sizeofTable
    · exact cut_of_lt _ hk
    · rw [cut_of_le _ (not_lt.mp hk)]
      unfold sizeofTable at hk
      unfold FcfsTable.bytes tableLen
      rw [if_neg (by omega), if_neg (by omega)]
  refine ⟨⟨h.mounted hmain, readHead_written h.layout hw hhash, fun i hi => ?_, ?_⟩, fun i hi => ?_⟩
  · show d'.bytes (a.lblkSz + i) = cut (a.cluCnt / 8) (fun _ => 0) i
    unfold cut
    rw [ite_self]
    exact hw.bitmap i hi
  · rw [h.now_eq]
    rfl
  · show d'.bytes (a.lblkSz + a.btmBlkLen + i) = a.ciph.encrypt a.tblBlkLen (cut sizeofTable (fmtrTable now).bytes) i
    rw [hbytes]
    exact hw.table i hi

theorem tailClear_formattedSt (a : Args) (d : Dev) (now : UInt64) : Persist.TailClear a (formattedSt d now) :=
  fun c _ _ => full_zero c

end Formats

/-! ### A device of zeros -/

/-- The arguments of a driver on a volume of eight clusters. -/
def eightArgs : Args := imageArgs (fmtrHead 512 4486 1 fun _ => 0)

theorem formats_blank : Formats eightArgs 512 4486 1 (fun _ => 0) (blankDev (512 * 4486)) where
  head := rfl
  sector := by decide
  half := by decide
  unit := by decide
  fits := by unfold Fits; decide
  bitmap := by decide
  exact := by decide
  io := ⟨by decide, fun _ => rfl⟩
  room := le_refl _
  old := noOldTables_blank _ rfl _
  ecb := ecb_plain

end Fcfs.Fmtr.Volume
