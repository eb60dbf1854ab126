import Fcfs.Vol.Effects

/-! # What stands in front of the data area

The header, the bitmap and the file table stand in front of the data area of the device, and the last two in
memory as well. Every effect of the driver leaves the header alone and writes the bitmap when it changes it
(`Front`), as long as the blocks written lie in the volume; orderly effects keep the table on the device up to
date too (`Synced`). So a device taken away after an orderly run carries what was in memory
(`Orderly.keeps_synced`, `Synced.carries`). -/

namespace Fcfs.Vol

open Lib.Bytes Lib.Runs Persist

/-- **The header stands on the device, and the bitmap as it is in memory.** -/
structure Front (a : Args) (s : St) : Prop where
  mounted : Mounted a s.dev
  head : readHead a.ciph s.dev a.lblkSz = some a.fsHead
  bitmap : ∀ i < a.btmBlkLen, s.dev.bytes (a.lblkSz + i) = cut (a.cluCnt / 8) s.fsBitmap i
  hash : s.fsTable.hashsum = UInt64.ofNat sizeofTable ^^^ a.fsHead.ctime

/-- **All metadata stands on the device as it is in memory.** -/
structure Synced (a : Args) (s : St) : Prop extends Front a s where
  table : ∀ i < a.tblBlkLen, s.dev.bytes (a.lblkSz + a.btmBlkLen + i) =
    a.ciph.encrypt a.tblBlkLen (cut sizeofTable s.fsTable.bytes) i

/-- A block of the volume. -/
def InVolume (a : Args) (e : ℤ × ℕ) : Prop := InVol a e.1 e.2

section Front
variable {a : Args} {s t : St}

theorem Synced.carries (h : Synced a s) : Carries a s s.dev :=
  ⟨h.mounted.io.mono (metaLen_le_volLen _), h.head, h.bitmap, h.table⟩

/-- The bytes of the metadata regions are the same. -/
structure SameFront (a : Args) (d d' : Dev) : Prop where
  size : d'.size = d.size
  bytes : ∀ i < metaLen a.fsHead, d'.bytes i = d.bytes i

theorem Mounted.regions_le {d : Dev} (hm : Mounted a d) :
    a.lblkSz + a.btmBlkLen + a.tblBlkLen ≤ metaLen a.fsHead := by
  have hle := hm.geo.le_metaLen
  unfold Args.btmBlkLen Args.tblBlkLen Args.lblkSz
  omega

theorem Front.congr (h : Front a s) (hm : Mounted a t.dev) (hsame : SameFront a s.dev t.dev)
    (hbm : t.fsBitmap = s.fsBitmap) (hhash : t.fsTable.hashsum = s.fsTable.hashsum) : Front a t := by
  have hle := h.mounted.regions_le
  refine ⟨hm, ?_, fun i hi => ?_, hhash.trans h.hash⟩
  · rw [readHead_congr hsame.size fun i hi => hsame.bytes i (by omega)]
    exact h.head
  · rw [hsame.bytes _ (by omega), hbm]
    exact h.bitmap i hi

theorem Synced.congr (h : Synced a s) (hm : Mounted a t.dev) (hsame : SameFront a s.dev t.dev)
    (hbm : t.fsBitmap = s.fsBitmap) (ht : t.fsTable = s.fsTable) : Synced a t := by
  have hle := h.mounted.regions_le
  refine ⟨h.toFront.congr hm hsame hbm (by rw [ht]), fun i hi => ?_⟩
  rw [hsame.bytes _ (by omega), ht]
  exact h.table i hi

theorem sameFront_putBlk (a : Args) (d : Dev) (cid : ℤ) (bid : ℕ) (b : Buf) :
    SameFront a d (putBlk a d cid bid b) := by
  refine ⟨rfl, fun i hi => memcpy_out ?_⟩
  have hle := metaLen_le_blkAddr a cid bid
  omega

theorem Front.putBitmap (h : Front a s) (bm : ℕ → UInt8) :
    Front a { s with dev := putBitmap a s.dev bm, fsBitmap := bm } := by
  have hle := h.mounted.regions_le
  refine ⟨h.mounted.putBitmap bm, ?_, fun i hi => ?_, h.hash⟩
  · rw [← h.head]
    exact readHead_congr rfl fun i hi => memcpy_out (by omega)
  · exact (memcpy_in (by omega) (by omega)).trans (by rw [Nat.add_sub_cancel_left])

/-- The table region is written, whatever it held. -/
theorem Front.putTable (h : Front a s) : Synced a (devWriteTable a s).2 := by
  have hle := h.mounted.regions_le
  rw [devWriteTable_putTable h.mounted]
  refine ⟨⟨h.mounted.putTable _, ?_, fun i hi => ?_, h.hash⟩, fun i hi => ?_⟩
  · rw [← h.head]
    exact readHead_congr rfl fun i hi => memcpy_out (by omega)
  · exact (memcpy_out (by omega)).trans (h.bitmap i hi)
  · exact (memcpy_in (by omega) (by omega)).trans (by rw [Nat.add_sub_cancel_left])

/-! ### One effect -/

/-- The bit of a cluster is brought up to date: the bitmap is written if it has changed. -/
theorem updBitmap_cases {bl : BlockList} {cid : ℤ} (hm : Mounted a s.dev) (h : updBitmap a s bl cid = some t) :
    t = s ∨ ∃ bm, t = { s with dev := putBitmap a s.dev bm, fsBitmap := bm } := by
  unfold updBitmap at h
  obtain ⟨⟨ch, bm⟩, hupd, h⟩ := Option.bind_eq_some_iff.mp h
  obtain rfl := Option.some.inj h
  cases ch with
  | true =>
    refine Or.inr ⟨bm, ?_⟩
    rw [if_pos rfl, devWriteBitmap_putBitmap (s := { s with fsBitmap := bm }) hm]
  | false =>
    refine Or.inl ?_
    unfold devUpdBitmap at hupd
    dsimp only at hupd
    split_ifs at hupd <;> cases Option.some.inj hupd
    rfl

theorem Synced.putBitmap (h : Synced a s) (bm : ℕ → UInt8) :
    Synced a { s with dev := putBitmap a s.dev bm, fsBitmap := bm } := by
  have hle := h.mounted.regions_le
  exact ⟨h.toFront.putBitmap bm, fun i hi => (memcpy_out (by omega)).trans (h.table i hi)⟩

/-- **Every effect keeps the header and the bitmap**, if the block it may write lies in the volume. -/
theorem Effect.keeps_front (h : Effect a s t) : Keeps devLog (InVolume a) (Front a) s t := by
  cases h with
  | block h =>
    refine Keeps.entry (devWriteBlock_log h) fun hin hf => ?_
    rw [Mounted.devWriteBlock_eq hf.mounted hin] at h
    obtain ⟨-, rfl⟩ := Prod.mk.inj (Option.some.inj h)
    exact hf.congr (hf.mounted.putBlk _ _ _) (sameFront_putBlk _ _ _ _ _) rfl rfl
  | bitmap h =>
    refine Keeps.silent (updBitmap_dev h) fun hf => ?_
    rcases updBitmap_cases hf.mounted h with rfl | ⟨bm, rfl⟩
    · exact hf
    · exact hf.putBitmap bm
  | table => exact Keeps.silent rfl fun hf => hf.putTable.toFront
  | memory hdev hbm hhash =>
    refine Keeps.silent (congrArg Dev.log hdev) fun hf => ?_
    exact hf.congr (by rw [hdev]; exact hf.mounted) (by rw [hdev]; exact ⟨rfl, fun _ _ => rfl⟩) hbm hhash

theorem Worked.keeps_front (h : Worked a s t) : Keeps devLog (InVolume a) (Front a) s t :=
  Keeps.of_run (fun _ _ => Effect.keeps_front) h

/-- **An orderly step keeps the table on the device too.** -/
theorem OrderlyStep.keeps_synced (h : OrderlyStep a s t) : Keeps devLog (InVolume a) (Synced a) s t := by
  cases h with
  | table hw =>
    obtain ⟨new, hlog, hinv⟩ := hw.keeps_front
    exact ⟨new, hlog, fun hnew hs => (hinv hnew hs.toFront).putTable⟩
  | keep he ht =>
    cases he with
    | block h =>
      refine Keeps.entry (devWriteBlock_log h) fun hin hs => ?_
      rw [Mounted.devWriteBlock_eq hs.mounted hin] at h
      obtain ⟨-, rfl⟩ := Prod.mk.inj (Option.some.inj h)
      exact hs.congr (hs.mounted.putBlk _ _ _) (sameFront_putBlk _ _ _ _ _) rfl rfl
    | bitmap h =>
      refine Keeps.silent (updBitmap_dev h) fun hs => ?_
      rcases updBitmap_cases hs.mounted h with rfl | ⟨bm, rfl⟩
      · exact hs
      · exact hs.putBitmap bm
    | table => exact Keeps.silent rfl fun hs => hs.toFront.putTable
    | memory hdev hbm _ =>
      refine Keeps.silent (congrArg Dev.log hdev) fun hs => ?_
      exact hs.congr (by rw [hdev]; exact hs.mounted) (by rw [hdev]; exact ⟨rfl, fun _ _ => rfl⟩) hbm ht

theorem Orderly.keeps_synced (h : Orderly a s t) : Keeps devLog (InVolume a) (Synced a) s t :=
  Keeps.of_run (fun _ _ => OrderlyStep.keeps_synced) h

end Front

end Fcfs.Vol
