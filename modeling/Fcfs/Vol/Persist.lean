import Fcfs.Vol.Bits
import Fcfs.Vol.Image
import Fcfs.Fmtr.Geometry

/-! # What a remount reads back

`dev_write_bitmap` and `dev_write_table` against `dev_mount`. The regions the two write are the ones
the mount reads, and the table survives whole. Of the bitmap the writer copies `clu_cnt / 8` bytes,
the fraction dropped, so when `clu_cnt` is no multiple of 8 the last clusters come back as not full
(`persists_iff`). -/

namespace Fcfs.Vol.Persist

open Lib.Bytes Fcfs.Fmtr.Geometry

variable {a : Args} {s : St} (junk : Buf)

theorem layout_fmtrHead {secSz secCnt : UInt32} {now : UInt64} {label : Fin 255 → UInt8}
    (h0 : 512 ≤ secSz.toNat) (hs : secSz.toNat ≤ 65535)
    (hfit : Fits (fmtrHead secSz secCnt now label)) : Layout (fmtrHead secSz secCnt now label) := by
  have hsec : secSz.toUInt16.toNat = secSz.toNat := by simp; omega
  have hlblk := lblkSz_fmtrHead secCnt now label hs
  have htbl := tblLen_fmtrHead secCnt now label h0 hs
  have hfit' := hfit
  unfold Fits at hfit'
  rw [blkCnt_fmtrHead, cluSz_fmtrHead] at hfit'
  have hbmp := bmpLen_fmtrHead secCnt now label h0 hs (by omega)
  have hdta := dtaBeg_fmtrHead secCnt now label hfit
  refine ⟨?_, rfl, ?_, by omega, ?_⟩
  · show 512 ≤ secSz.toUInt16.toNat
    omega
  · rw [htbl, hlblk, Nat.mul_comm]
    exact (Nat.lt_mul_div_succ sizeofTable (by omega)).le
  · have htab : sizeofTable / (2 * secSz.toNat) * (2 * secSz.toNat) ≤ sizeofTable :=
      Nat.div_mul_le_self _ _
    have hq : behind secSz.toNat secCnt.toNat / (128 * secSz.toNat) * (128 * secSz.toNat) ≤
        behind secSz.toNat secCnt.toNat := Nat.div_mul_le_self _ _
    have hbmp' : (fmtrHead secSz secCnt now label).bmpLen.toNat ≤
        behind secSz.toNat secCnt.toNat / (128 * secSz.toNat) + 1 := by
      rw [hbmp, bmpBlks]
      split_ifs <;> omega
    have hmul := Nat.mul_le_mul_right (2 * secSz.toNat) hbmp'
    have hbeh := behind_le secSz.toNat secCnt.toNat
    have hcnt : secCnt.toNat < 2 ^ 32 := secCnt.toNat_lt
    have h64 : behind secSz.toNat secCnt.toNat / (128 * secSz.toNat) * (128 * secSz.toNat) =
        64 * (behind secSz.toNat secCnt.toNat / (128 * secSz.toNat) * (2 * secSz.toNat)) := by ring
    rw [hlblk, htbl, Nat.add_mul, Nat.add_mul, Nat.add_mul]
    rw [Nat.add_mul] at hmul
    unfold sizeofTable at htab ⊢
    omega

/-! ### The two writes -/

theorem devWriteBitmap_eq (hr : Layout a.fsHead) (hio : IoOk (metaLen a.fsHead) s.dev) :
    devWriteBitmap a s = (0, { s with
      dev := put s.dev a.lblkSz (cut (a.cluCnt / 8) s.fsBitmap) a.btmBlkLen }) := by
  have hle := hr.le_metaLen
  unfold devWriteBitmap Args.btmBlkLen Args.lblkSz
  dsimp only
  rw [hio.fwrite _ (by omega)]

theorem devWriteTable_eq (hr : Layout a.fsHead) (hio : IoOk (metaLen a.fsHead) s.dev) :
    devWriteTable a s = (0, { s with
      dev := put s.dev (a.lblkSz + a.btmBlkLen)
        (a.ciph.encrypt a.tblBlkLen (cut sizeofTable s.fsTable.bytes)) a.tblBlkLen }) := by
  have hle := hr.le_metaLen
  unfold devWriteTable Args.btmBlkLen Args.tblBlkLen Args.lblkSz
  dsimp only
  rw [hio.fwrite _ (by omega), if_neg (by simp)]

/-! ### Reading back -/

/-- The device carries the header, the bitmap region of `s` and the table region of `s`. -/
structure Carries (a : Args) (s : St) (d : Dev) : Prop where
  io : IoOk (metaLen a.fsHead) d
  head : readHead a.ciph d a.lblkSz = some a.fsHead
  bitmap : ∀ i < a.btmBlkLen, d.bytes (a.lblkSz + i) = cut (a.cluCnt / 8) s.fsBitmap i
  table : ∀ i < a.tblBlkLen, d.bytes (a.lblkSz + a.btmBlkLen + i) =
    a.ciph.encrypt a.tblBlkLen (cut sizeofTable s.fsTable.bytes) i

theorem readHead_congr {c : Cipher} {d d' : Dev} {len : ℕ} (hsz : d'.size = d.size)
    (hb : ∀ i < len, d'.bytes i = d.bytes i) : readHead c d' len = readHead c d len := by
  have hcut : cut len (shift d'.bytes 0) = cut len (shift d.bytes 0) :=
    cut_congr fun i hi => by simpa using hb i hi
  have hread : d'.fread 0 len = d.fread 0 len := by
    unfold Dev.fread
    rw [hsz, hcut]
  unfold readHead
  rw [hread]

theorem carries_of_bitmap_table (hr : Layout a.fsHead) (hio : IoOk (metaLen a.fsHead) s.dev)
    (hhead : readHead a.ciph s.dev a.lblkSz = some a.fsHead) :
    Carries a s (devWriteTable a (devWriteBitmap a s).2).2.dev := by
  have hio' := hio.put a.lblkSz (cut (a.cluCnt / 8) s.fsBitmap) a.btmBlkLen
  rw [devWriteBitmap_eq hr hio, devWriteTable_eq hr hio']
  refine ⟨hio'.put _ _ _, ?_, ?_, ?_⟩
  · rw [← hhead]
    refine readHead_congr rfl fun i hi => ?_
    rw [put_bytes, memcpy_out (by omega), put_bytes, memcpy_out (by omega)]
  · intro i hi
    rw [put_bytes, memcpy_out (by omega), put_bytes, memcpy_in (by omega) (by omega),
      Nat.add_sub_cancel_left]
  · intro i hi
    rw [put_bytes, memcpy_in (by omega) (by omega), Nat.add_sub_cancel_left]

theorem carries_of_table_bitmap (hr : Layout a.fsHead) (hio : IoOk (metaLen a.fsHead) s.dev)
    (hhead : readHead a.ciph s.dev a.lblkSz = some a.fsHead) :
    Carries a s (devWriteBitmap a (devWriteTable a s).2).2.dev := by
  have hio' := hio.put (a.lblkSz + a.btmBlkLen)
    (a.ciph.encrypt a.tblBlkLen (cut sizeofTable s.fsTable.bytes)) a.tblBlkLen
  rw [devWriteTable_eq hr hio, devWriteBitmap_eq hr hio']
  refine ⟨hio'.put _ _ _, ?_, ?_, ?_⟩
  · rw [← hhead]
    refine readHead_congr rfl fun i hi => ?_
    rw [put_bytes, memcpy_out (by omega), put_bytes, memcpy_out (by omega)]
  · intro i hi
    rw [put_bytes, memcpy_in (by omega) (by omega), Nat.add_sub_cancel_left]
  · intro i hi
    rw [put_bytes, memcpy_out (by omega), put_bytes, memcpy_in (by omega) (by omega),
      Nat.add_sub_cancel_left]

/-- The bitmap a mount reads from the device. -/
def readBack (a : Args) (junk : Buf) (s : St) : ℕ → UInt8 :=
  fun i => if i < a.btmBlkLen then cut (a.cluCnt / 8) s.fsBitmap i else junk i

/-- **Mounting a device that carries a state.** The bitmap is determined, the table agrees. -/
theorem devMount_of_carries (hr : Layout a.fsHead) {d : Dev} (hc : Carries a s d)
    (hhash : s.fsTable.hashsum = UInt64.ofNat sizeofTable ^^^ a.fsHead.ctime) :
    ∃ t, devMount a.ciph junk d a.fsHead.phyBlkSz.toNat = some (a.fsHead, readBack a junk s, t) ∧
      s.fsTable.Same t := by
  have hle := hr.le_metaLen
  have hsec : a.fsHead.phyBlkSz.toNat * blockSize = a.lblkSz := by
    unfold Args.lblkSz FcfsHead.lblkSz; rw [hr.block]
  have hbtm : a.fsHead.lblkSz * a.fsHead.bmpLen.toNat = a.btmBlkLen := Nat.mul_comm _ _
  have htbl : a.fsHead.lblkSz * a.fsHead.tblLen.toNat = a.tblBlkLen := Nat.mul_comm _ _
  have hlen : a.lblkSz + a.btmBlkLen + a.tblBlkLen ≤ metaLen a.fsHead := hle
  have hbit : readBitmap junk d a.lblkSz a.btmBlkLen = some (readBack a junk s) := by
    unfold readBitmap readBack
    rw [hc.io.fread (by omega), Option.bind_eq_bind, Option.bind_some]
    refine congrArg some (funext fun i => ?_)
    split_ifs with hi
    · rw [cut_of_lt _ hi, shift_apply, hc.bitmap i hi]
    · rfl
  have hdec : a.ciph.decrypt a.tblBlkLen (cut a.tblBlkLen (shift d.bytes (a.lblkSz + a.btmBlkLen))) =
      cut a.tblBlkLen (cut sizeofTable s.fsTable.bytes) := by
    rw [a.ciph.decrypt_cut, ← a.ciph.decrypt_encrypt]
    exact a.ciph.decrypt_congr fun i hi => hc.table i hi
  have hbytes : ∀ i < sizeofTable,
      cut a.tblBlkLen (cut sizeofTable s.fsTable.bytes) i = s.fsTable.bytes i := by
    intro i hi
    have htab : sizeofTable ≤ a.tblBlkLen := hr.table
    rw [cut_of_lt _ (by omega), cut_of_lt _ hi]
  have hsame := FcfsTable.ofBytes_bytes s.fsTable hbytes
  refine ⟨_, ?_, hsame⟩
  unfold devMount readTable
  simp only
  rw [hsec, hc.head, Option.bind_eq_bind, Option.bind_some, hbtm, hbit, htbl,
    hc.io.fread hlen]
  simp only [Option.bind_eq_bind, Option.bind_some]
  rw [hdec, hsame.hash, hhash, if_neg (by simp)]
  rfl

/-! ### The round trip -/

/-- What a mount of `d` reads back agrees with the memory of `s`: the bit of every cluster and the
table. -/
def ReadsBack (a : Args) (junk : Buf) (s : St) (d : Dev) : Prop :=
  ∃ bm t, devMount a.ciph junk d a.fsHead.phyBlkSz.toNat = some (a.fsHead, bm, t) ∧
    (∀ cid : ℕ, cid < a.cluCnt → full bm cid = full s.fsBitmap cid) ∧ s.fsTable.Same t

/-- The bytes of the bitmap region. -/
def InBitmap (a : Args) (pos : ℕ) : Prop := a.lblkSz ≤ pos ∧ pos < a.lblkSz + a.btmBlkLen

/-- The bytes of the table region. -/
def InTable (a : Args) (pos : ℕ) : Prop :=
  a.lblkSz + a.btmBlkLen ≤ pos ∧ pos < a.lblkSz + a.btmBlkLen + a.tblBlkLen

/-- The bytes of the header block and of the data clusters. -/
def InHeadOrData (a : Args) (pos : ℕ) : Prop := pos < a.lblkSz ∨ metaLen a.fsHead ≤ pos

/-- **The persistence round trip**: both orders of the two writes read back, and neither write
changes the header block, the other region or a data cluster. -/
structure Persists (a : Args) (junk : Buf) (s : St) : Prop where
  bitmapFirst : ReadsBack a junk s (devWriteTable a (devWriteBitmap a s).2).2.dev
  tableFirst : ReadsBack a junk s (devWriteBitmap a (devWriteTable a s).2).2.dev
  bitmapSpares : ∀ pos, InHeadOrData a pos ∨ InTable a pos →
    (devWriteBitmap a s).2.dev.bytes pos = s.dev.bytes pos
  tableSpares : ∀ pos, InHeadOrData a pos ∨ InBitmap a pos →
    (devWriteTable a s).2.dev.bytes pos = s.dev.bytes pos

/-- No cluster behind the last whole byte of the bitmap is full. -/
def TailClear (a : Args) (s : St) : Prop :=
  ∀ cid : ℕ, 8 * (a.cluCnt / 8) ≤ cid → cid < a.cluCnt → full s.fsBitmap cid = false

/-- The bits a mount reads back: those of whole bytes as they were, the others clear. -/
theorem full_readBack (hr : Regions a.fsHead) {cid : ℕ} (hcid : cid < a.cluCnt) :
    full (readBack a junk s) cid = (decide (cid < 8 * (a.cluCnt / 8)) && full s.fsBitmap cid) := by
  have hbit : a.cluCnt ≤ 8 * a.btmBlkLen := by
    have hle := hr.bitmap
    rw [Nat.mul_assoc] at hle
    exact hle
  have hlt : cid / 8 < a.btmBlkLen := by omega
  rw [full_of_nonneg _ (by omega), full_of_nonneg _ (by omega), Int.toNat_natCast]
  unfold readBack
  rw [if_pos hlt]
  by_cases hin : cid / 8 < a.cluCnt / 8
  · rw [cut_of_lt _ hin]
    have hdec : cid < 8 * (a.cluCnt / 8) := by omega
    simp [hdec]
  · rw [cut_of_le _ (by omega), bitSet_zero]
    have hdec : ¬ cid < 8 * (a.cluCnt / 8) := by omega
    simp [hdec]

theorem readsBack_iff (hr : Regions a.fsHead) {d : Dev} (hc : Carries a s d)
    (hhash : s.fsTable.hashsum = UInt64.ofNat sizeofTable ^^^ a.fsHead.ctime) :
    ReadsBack a junk s d ↔ TailClear a s := by
  obtain ⟨t, hmount, hsame⟩ := devMount_of_carries junk hr.toLayout hc hhash
  constructor
  · rintro ⟨bm, t', hmount', hbits, -⟩ cid hle hlt
    rw [hmount] at hmount'
    obtain ⟨rfl, rfl⟩ : readBack a junk s = bm ∧ t = t' := by simpa using hmount'
    have hcid := hbits cid hlt
    rw [full_readBack junk hr hlt] at hcid
    rw [← hcid]
    have hdec : ¬ cid < 8 * (a.cluCnt / 8) := by omega
    simp [hdec]
  · intro htail
    refine ⟨_, t, hmount, fun cid hlt => ?_, hsame⟩
    rw [full_readBack junk hr hlt]
    by_cases hdec : cid < 8 * (a.cluCnt / 8)
    · simp [hdec]
    · rw [htail cid (by omega) hlt, Bool.and_false]

/-- **A remount reads everything back exactly when no cluster in the last, broken byte is full.** -/
theorem persists_iff (hr : Regions a.fsHead) (hio : IoOk (metaLen a.fsHead) s.dev)
    (hhead : readHead a.ciph s.dev a.lblkSz = some a.fsHead)
    (hhash : s.fsTable.hashsum = UInt64.ofNat sizeofTable ^^^ a.fsHead.ctime) :
    Persists a junk s ↔ TailClear a s := by
  have hle := hr.le_metaLen
  have hbt := readsBack_iff junk hr (carries_of_bitmap_table hr.toLayout hio hhead) hhash
  have htb := readsBack_iff junk hr (carries_of_table_bitmap hr.toLayout hio hhead) hhash
  constructor
  · intro hp
    exact hbt.mp hp.bitmapFirst
  · intro htail
    refine ⟨hbt.mpr htail, htb.mpr htail, fun pos hpos => ?_, fun pos hpos => ?_⟩
    · rw [devWriteBitmap_eq hr.toLayout hio]
      refine memcpy_out ?_
      unfold InHeadOrData InTable Args.btmBlkLen Args.tblBlkLen Args.lblkSz at *
      omega
    · rw [devWriteTable_eq hr.toLayout hio]
      refine memcpy_out ?_
      unfold InHeadOrData InBitmap Args.btmBlkLen Args.tblBlkLen Args.lblkSz at *
      omega

/-! ### A volume of nine clusters -/

/-- The header of a device of 4500 sectors of 512 bytes. -/
def nineHead : FcfsHead := fmtrHead 512 4500 0 fun _ => 0

/-- The memory of a driver on it, with the given bitmap. -/
def nineState (bm : ℕ → UInt8) : St where
  dev := image nineHead fun _ _ _ => 0
  fsBitmap := bm
  fsTable := ⟨UInt64.ofNat sizeofTable, fun _ => TableEntry.zero⟩
  clrsCache := ⟨-1, fun _ => 0, fun _ => 0, 0, 0⟩
  mapSeq := fun _ => none
  mapFid := fun _ => none

theorem regions_nineHead : Regions nineHead where
  toLayout := layout_fmtrHead (by decide) (by decide) (by unfold Fits; decide)
  bitmap := by decide

theorem io_nineState (bm : ℕ → UInt8) : IoOk (metaLen nineHead) (nineState bm).dev :=
  (io_image nineHead fun _ _ _ => 0).mono (metaLen_le_volLen nineHead)

theorem head_nineState (bm : ℕ → UInt8) :
    readHead plainCipher (nineState bm).dev nineHead.lblkSz = some nineHead := by
  have hhash : nineHead.hashsum = UInt64.ofNat sizeofHead ^^^ nineHead.ctime := rfl
  have hread := readHead_image (fun _ _ _ => 0) regions_nineHead.toLayout hhash
  show readHead plainCipher (image nineHead fun _ _ _ => 0) nineHead.lblkSz = some nineHead
  exact hread

theorem hash_nineState (bm : ℕ → UInt8) :
    (nineState bm).fsTable.hashsum = UInt64.ofNat sizeofTable ^^^ nineHead.ctime := by
  show UInt64.ofNat sizeofTable = UInt64.ofNat sizeofTable ^^^ 0
  exact (UInt64.xor_zero).symm

/-- The ninth cluster is full, and a remount forgets it. -/
theorem not_persists_nine :
    ¬ ∀ (a : Args) (s : St), Regions a.fsHead → IoOk (metaLen a.fsHead) s.dev →
      readHead a.ciph s.dev a.lblkSz = some a.fsHead →
      s.fsTable.hashsum = UInt64.ofNat sizeofTable ^^^ a.fsHead.ctime →
      Persists a (fun _ => 0) s := by
  intro h
  have hr := regions_nineHead
  have hio := io_nineState fun i => if i = 1 then 128 else 0
  have hhead := head_nineState fun i => if i = 1 then 128 else 0
  have hhash := hash_nineState fun i => if i = 1 then 128 else 0
  have hp := h (imageArgs nineHead) (nineState fun i => if i = 1 then 128 else 0) hr hio hhead hhash
  have hcarries := carries_of_bitmap_table (a := imageArgs nineHead) hr.toLayout hio hhead
  have htail := (readsBack_iff (a := imageArgs nineHead) (fun _ => 0) hr hcarries hhash).mp hp.bitmapFirst
  have hbit := htail 8 (by decide) (by decide)
  exact absurd hbit (by decide)

/-- If only some of the first eight are, nothing is lost, whatever the next mount finds in memory. -/
theorem persists_nine :
    Persists (imageArgs nineHead) (fun _ => 255) (nineState fun i => if i = 0 then 91 else 0) := by
  refine (persists_iff (a := imageArgs nineHead) (fun _ => 255) regions_nineHead (io_nineState _) (head_nineState _)
    (hash_nineState _)).mpr fun cid hge hlt => ?_
  have hclu : (imageArgs nineHead).cluCnt = 9 := by decide
  rw [hclu] at hge hlt
  obtain rfl : cid = 8 := by omega
  decide

end Fcfs.Vol.Persist
