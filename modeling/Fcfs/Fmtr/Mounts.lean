import Fcfs.Fmtr.Address
import Fcfs.Fmtr.Write
import Fcfs.Vol.Consistent

/-! # The driver mounts what the formatter writes

The formatter encrypts the file table and the seven blocks of the root each as one buffer; the driver
decrypts the table whole, but the blocks one at a time. Under a cipher that works on units of 16
bytes that makes no difference (`Ecb.decrypt_part`), so the driver finds an empty root directory on
cluster 0 and, when no older cluster table is mistaken for a new one, nothing on the others
(`mounts_formatted`). -/

namespace Fcfs.Fmtr.Mounts

open Fcfs Fcfs.Vol Fcfs.Fmtr.Geometry Fcfs.Fmtr.Address
open Lib.Bytes Lib.Paged

/-! ### Encryption by units -/

/-- Encryption acts on each 16 bytes alone. -/
def Ecb (c : Cipher) : Prop :=
  ∃ E : (Fin 16 → UInt8) → Fin 16 → UInt8, ∀ n, 16 ∣ n → ∀ (b : Buf) (k : ℕ), k < n →
    c.encrypt n b k = E (fun j => b (16 * (k / 16) + j)) ⟨k % 16, Nat.mod_lt _ (by omega)⟩

section Ecb
variable {c : Cipher} (hecb : Ecb c) {n m off : ℕ} (hn : 16 ∣ n) (hm : 16 ∣ m) (hoff : 16 ∣ off)
variable (hle : off + m ≤ n)
include hecb hn hm hoff hle

theorem Ecb.encrypt_part (b : Buf) {i : ℕ} (hi : i < m) :
    c.encrypt n b (off + i) = c.encrypt m (shift b off) i := by
  obtain ⟨E, hE⟩ := hecb
  obtain ⟨q, rfl⟩ := hoff
  have hdiv : (16 * q + i) / 16 = q + i / 16 := Nat.mul_add_div (by omega) _ _
  have hmod : (16 * q + i) % 16 = i % 16 := Nat.mul_add_mod _ _ _
  rw [hE n hn b _ (by omega), hE m hm _ _ hi]
  simp only [hdiv, hmod, shift_apply, Nat.mul_add, Nat.add_assoc]

/-- **A part of an encrypted buffer decrypts to the part.** -/
theorem Ecb.decrypt_part (b : Buf) :
    c.decrypt m (shift (c.encrypt n b) off) = cut m (shift b off) := by
  rw [← c.decrypt_encrypt]
  exact c.decrypt_congr fun i hi => hecb.encrypt_part hn hm hoff hle b hi

end Ecb

/-! ### The mounted volume -/

/-- The driver's memory after `dev_mount`. -/
def mountedSt (d : Dev) (bm : ℕ → UInt8) (t : FcfsTable) : St where
  dev := d
  fsBitmap := bm
  fsTable := t
  clrsCache := ⟨-1, fun _ => 0, fun _ => 0, 0, 0⟩
  mapSeq := fun _ => none
  mapFid := fun _ => none

/-- **An empty volume mounts**: both hashsums are accepted, the header is the formatter's, the bytes that
the bitmap has are clear, the root is the only file and an empty directory on the seven blocks of cluster 0,
and all other clusters are free. -/
structure MountsEmpty (a : Args) (secSz : ℕ) (d : Dev) (bm : ℕ → UInt8) (t : FcfsTable) : Prop where
  mount : devMount a.ciph a.junk d secSz = some (a.fsHead, bm, t)
  bytes : ∀ i < a.btmBlkLen, bm i = 0
  table : ∀ f : ℤ, 0 ≤ f → f < tableLen → ((t.entrs f).lnkCnt ≠ 0 ↔ f = 0)
  root : ∃ s, devGetFileSeq a (mountedSt d bm t) 0 = some (rootNodes, s)
  dir : ∃ s, devReadDir a (mountedSt d bm t) 0 = some (none, s)
  free : ∀ c : ℤ, 1 ≤ c → c < a.cluCnt →
    ∃ bl, devReadCtable a d c = some bl ∧ ∀ i, (bl.entrs i).fid = 0

/-- **A fresh volume mounts**: an empty one with the bit of every cluster clear, also behind the bytes that
the bitmap has. -/
structure MountsFresh (a : Args) (secSz : ℕ) (d : Dev) (bm : ℕ → UInt8) (t : FcfsTable) : Prop
    extends MountsEmpty a secSz d bm t where
  bits : ∀ c : ℤ, 0 ≤ c → c < a.cluCnt → full bm c = false

/-- No cluster behind the first carries a table whose hashsum would match. -/
def NoOldTables (a : Args) (d : Dev) : Prop :=
  ∀ c : ℤ, 1 ≤ c → c < a.cluCnt →
    (BlockList.ofBytes (shift d.bytes (blkAddr a c 0))).hashsum ≠
      getHashsum a (BlockList.ofBytes (shift d.bytes (blkAddr a c 0)))

/-- What the geometry gives. -/
structure Layout (a : Args) (secSz : ℕ) : Prop where
  blk : a.lblkSz = 2 * secSz
  sector : 512 ≤ secSz
  unit : 16 ∣ a.lblkSz
  table : sizeofTable ≤ a.tblBlkLen
  data : a.fsHead.dtaBeg.toNat = 2 + a.fsHead.bmpLen.toNat + a.fsHead.tblLen.toNat
  device : a.fsHead.dtaBeg.toNat + bloksPerCluster * a.cluCnt ≤ a.fsHead.blkCnt.toNat + 1
  clu : 0 < a.cluCnt
  small : 8 * a.lblkSz < 2 ^ 31

theorem layout_fmtrHead {a : Args} {secSz secCnt : UInt32} {now : UInt64} {label : Fin 255 → UInt8}
    (hhead : a.fsHead = fmtrHead secSz secCnt now label) (h0 : 512 ≤ secSz.toNat)
    (hs : secSz.toNat ≤ 65535) (h16 : 16 ∣ secSz.toNat) (hfit : Fits a.fsHead) :
    Layout a secSz.toNat := by
  have hL : a.lblkSz = 2 * secSz.toNat := by
    unfold Args.lblkSz
    rw [hhead, lblkSz_fmtrHead secCnt now label hs]
  have htbl := tblLen_fmtrHead secCnt now label h0 hs
  have hblk : (fmtrHead secSz secCnt now label).blkCnt.toNat = secCnt.toNat / 2 :=
    blkCnt_fmtrHead secCnt now label
  have hclu8 : (fmtrHead secSz secCnt now label).cluSz.toNat = 8 := rfl
  rw [hhead] at hfit
  have hdta := dtaBeg_fmtrHead secCnt now label hfit
  have hclu := cluCnt_fmtrHead secCnt now label h0 hs hfit
  unfold Fits at hfit
  have hbmp := bmpLen_fmtrHead secCnt now label h0 hs (by omega)
  rw [← hhead] at htbl hblk hclu8 hdta hclu hbmp hfit
  rw [← hbmp] at hclu
  rw [hclu8] at hfit
  unfold behind at hclu
  refine ⟨hL, h0, by rw [hL]; exact h16.mul_left 2, ?_, hdta, ?_, ?_, by omega⟩
  · unfold Args.tblBlkLen
    rw [htbl, hL, Nat.mul_comm]
    exact (Nat.lt_mul_div_succ sizeofTable (by omega)).le
  · unfold Args.cluCnt bloksPerCluster
    omega
  · unfold Args.cluCnt
    omega

/-! ### Reading what was written -/

section Read
variable {a : Args} {secSz : ℕ} {junk : Buf} {now : UInt64} {d d' : Dev}
variable (hl : Layout a secSz) (hw : Written a.ciph junk a.fsHead now d d')
include hl hw

omit hl in
theorem le_size {n : ℕ} (hn : n ≤ a.fsHead.dtaBeg.toNat + 8) : n * a.lblkSz ≤ d'.size := by
  have hroom := hw.room
  have hmul := Nat.mul_le_mul_right a.lblkSz hn
  rw [Nat.add_mul] at hmul
  rw [hw.size]
  exact hmul.trans hroom

theorem readHead_written (hhash : a.fsHead.hashsum = UInt64.ofNat sizeofHead ^^^ a.fsHead.ctime) :
    readHead a.ciph d' a.lblkSz = some a.fsHead := by
  have hL : sizeofHead ≤ a.lblkSz := by
    have hblk := hl.blk
    have hsec := hl.sector
    unfold sizeofHead
    omega
  have hread : d'.fread 0 a.lblkSz = some (cut a.lblkSz (shift d'.bytes 0)) := by
    have hsize := le_size hw (n := 1) (by omega)
    exact if_pos (by omega)
  have hdec : a.ciph.decrypt a.lblkSz (cut a.lblkSz (shift d'.bytes 0)) =
      cut a.lblkSz (cut sizeofHead a.fsHead.bytes) := by
    rw [← a.ciph.decrypt_encrypt _ (cut sizeofHead a.fsHead.bytes), shift_zero, a.ciph.decrypt_cut]
    exact a.ciph.decrypt_congr hw.head
  have hhead : FcfsHead.ofBytes (cut a.lblkSz (cut sizeofHead a.fsHead.bytes)) = a.fsHead := by
    refine Eq.trans (FcfsHead.ofBytes_congr fun i hi => ?_) (FcfsHead.ofBytes_bytes _)
    rw [cut_of_lt _ (hi.trans_le hL), cut_of_lt _ hi]
  unfold readHead
  rw [hread, Option.bind_eq_bind, Option.bind_some, hdec]
  dsimp only
  rw [hhead, if_neg (not_not.mpr hhash)]

theorem readBitmap_written : ∃ bm, readBitmap a.junk d' a.lblkSz a.btmBlkLen = some bm ∧
    ∀ i < a.btmBlkLen, bm i = 0 := by
  have hsize := le_size hw (n := 1 + a.fsHead.bmpLen.toNat) (by have := hl.data; omega)
  rw [Nat.add_mul, Nat.one_mul] at hsize
  refine ⟨_, Option.bind_eq_some_iff.mpr ⟨_, if_pos hsize, rfl⟩, fun i hi => ?_⟩
  rw [if_pos hi, cut_of_lt _ hi]
  exact hw.bitmap i hi

theorem readTable_written (hnow : a.fsHead.ctime = now) :
    ∃ t, readTable a.ciph d' (a.lblkSz + a.btmBlkLen) a.tblBlkLen a.fsHead = some t ∧
      (fmtrTable now).Same t := by
  have hsize := le_size hw (n := 1 + a.fsHead.bmpLen.toNat + a.fsHead.tblLen.toNat)
    (by have := hl.data; omega)
  rw [Nat.add_mul, Nat.add_mul, Nat.one_mul] at hsize
  have hdec : a.ciph.decrypt a.tblBlkLen (cut a.tblBlkLen (shift d'.bytes (a.lblkSz + a.btmBlkLen))) =
      cut a.tblBlkLen (fmtrTable now).bytes := by
    rw [← a.ciph.decrypt_encrypt _ (fmtrTable now).bytes, a.ciph.decrypt_cut]
    exact a.ciph.decrypt_congr hw.table
  have hsame : (fmtrTable now).Same (FcfsTable.ofBytes (cut a.tblBlkLen (fmtrTable now).bytes)) :=
    FcfsTable.ofBytes_bytes _ fun i hi => cut_of_lt _ (hi.trans_le hl.table)
  refine ⟨_, Option.bind_eq_some_iff.mpr ⟨_, if_pos hsize, ?_⟩, hsame⟩
  rw [hdec]
  dsimp only
  rw [hnow, hsame.hash]
  exact if_neg (not_not.mpr rfl)

omit hw in
/-- The seek position of a block is exact and the block is on the device. -/
theorem devReadBlock_written (hlast : LastBelow a.fsHead) {cid : ℤ} {bid : ℕ}
    (hin : InVol a cid bid) (hsize : blkAddr a cid bid + a.lblkSz ≤ d'.size) (needCrypt : Bool) :
    devReadBlock a d' cid bid needCrypt = some
      (if needCrypt then a.ciph.decrypt a.lblkSz (shift d'.bytes (blkAddr a cid bid))
        else cut a.lblkSz (shift d'.bytes (blkAddr a cid bid))) := by
  unfold devReadBlock
  rw [blockPos_of_lt hin.1 hl.small (hlast.blkAddr_lt hin), if_neg (by omega), Int.toNat_natCast]
  refine Option.bind_eq_some_iff.mpr ⟨_, if_pos hsize, ?_⟩
  rw [a.ciph.decrypt_cut]

theorem devReadCtable_root (hlast : LastBelow a.fsHead) (hnow : a.fsHead.ctime = now) :
    devReadCtable a d' 0 = some (fmtrBlockList now) := by
  have hin : InVol a 0 0 := ⟨le_refl 0, by have := hl.clu; omega, by decide⟩
  have haddr : blkAddr a 0 0 = a.fsHead.dtaBeg.toNat * a.lblkSz := rfl
  have hsize := le_size hw (n := a.fsHead.dtaBeg.toNat + 1) (by omega)
  rw [Nat.succ_mul] at hsize
  have hbl : BlockList.ofBytes (cut a.lblkSz (shift d'.bytes (blkAddr a 0 0))) = fmtrBlockList now := by
    refine Eq.trans (BlockList.ofBytes_congr fun i hi => ?_) (BlockList.ofBytes_bytes _)
    have hi' : i < a.lblkSz := by
      have hblk := hl.blk
      have hsec := hl.sector
      unfold sizeofBlockList at hi
      omega
    rw [cut_of_lt _ hi', shift_apply, haddr]
    refine (hw.root i hi').trans ?_
    rw [memcpy_in (by omega) (by omega), Nat.sub_zero]
  have hsum : getHashsum a (fmtrBlockList now) = now := by
    have hzero : ((List.finRange 7).foldl (fun sum _ => sum + 0) (0 : UInt32)).toUInt64 = 0 := by decide
    show ((List.finRange 7).foldl (fun sum _ => sum + 0) (0 : UInt32)).toUInt64 ^^^ a.fsHead.ctime = now
    rw [hzero, hnow, UInt64.zero_xor]
  unfold devReadCtable
  rw [devReadBlock_written hl hlast hin (by rw [haddr]; exact hsize)]
  simp only [Option.bind_eq_bind, Option.bind_some, Bool.false_eq_true, if_false, hbl, hsum]
  exact congrArg some (if_neg (not_not.mpr rfl))

theorem devReadBlock_root (hlast : LastBelow a.fsHead) (hecb : Ecb a.ciph) {bid : ℕ} (h1 : 1 ≤ bid)
    (h7 : bid ≤ 7) : devReadBlock a d' 0 bid true = some fun _ => 0 := by
  have hin : InVol a 0 bid := ⟨le_refl 0, by have := hl.clu; omega, by unfold bloksPerCluster; omega⟩
  obtain ⟨k, rfl⟩ : ∃ k, bid = k + 1 := ⟨bid - 1, by omega⟩
  have hk : k * a.lblkSz + a.lblkSz ≤ 7 * a.lblkSz := by
    rw [← Nat.succ_mul]
    exact Nat.mul_le_mul_right _ (by omega)
  have haddr : blkAddr a 0 (k + 1) = a.fsHead.dtaBeg.toNat * a.lblkSz + a.lblkSz + k * a.lblkSz := by
    unfold blkAddr bloksPerCluster
    rw [Int.toNat_zero]
    ring
  have hroom := hw.room
  have hsize : blkAddr a 0 (k + 1) + a.lblkSz ≤ d'.size := by
    rw [haddr, hw.size]
    unfold Args.lblkSz at *
    omega
  have hzero : a.ciph.decrypt a.lblkSz
      (shift (a.ciph.encrypt (7 * a.lblkSz) fun _ => 0) (k * a.lblkSz)) = fun _ => 0 := by
    rw [hecb.decrypt_part (hl.unit.mul_left 7) hl.unit (hl.unit.mul_left k) hk]
    funext i
    exact ite_self _
  rw [devReadBlock_written hl hlast hin hsize, if_pos rfl, ← hzero]
  refine congrArg some (a.ciph.decrypt_congr fun i hi => ?_)
  rw [shift_apply, shift_apply, haddr, Nat.add_assoc (_ + _)]
  exact hw.clear _ (by unfold Args.lblkSz at *; omega)

theorem devReadCtable_rest (hlast : LastBelow a.fsHead) (hold : NoOldTables a d) {c : ℤ}
    (h1 : 1 ≤ c) (hc : c < a.cluCnt)
    (hdev : a.fsHead.blkCnt.toNat * a.lblkSz ≤ d.size) :
    devReadCtable a d' c = some BlockList.zero := by
  have hin : InVol a c 0 := ⟨by omega, hc, by decide⟩
  have hdevice := hl.device
  have hsize : blkAddr a c 0 + a.lblkSz ≤ d'.size := by
    have hle : a.fsHead.dtaBeg.toNat + bloksPerCluster * c.toNat + 0 + 1 ≤
        a.fsHead.blkCnt.toNat := by
      unfold bloksPerCluster at *
      omega
    have hmul := Nat.mul_le_mul_right a.lblkSz hle
    rw [Nat.succ_mul] at hmul
    rw [hw.size]
    exact hmul.trans hdev
  have hbehind : a.fsHead.dtaBeg.toNat * a.lblkSz + 8 * a.lblkSz ≤ blkAddr a c 0 := by
    rw [← Nat.add_mul]
    exact Nat.mul_le_mul_right _ (by unfold bloksPerCluster; omega)
  have hbl : BlockList.ofBytes (cut a.lblkSz (shift d'.bytes (blkAddr a c 0))) =
      BlockList.ofBytes (shift d.bytes (blkAddr a c 0)) := by
    refine BlockList.ofBytes_congr fun i hi => ?_
    have hi' : i < a.lblkSz := by
      have hblk := hl.blk
      have hsec := hl.sector
      unfold sizeofBlockList at hi
      omega
    rw [cut_of_lt _ hi', shift_apply, shift_apply]
    exact hw.rest _ (by unfold Args.lblkSz at *; omega)
  unfold devReadCtable
  rw [devReadBlock_written hl hlast hin hsize]
  simp only [Option.bind_eq_bind, Option.bind_some, Bool.false_eq_true, if_false, hbl]
  rw [if_pos (hold c h1 hc)]

/-! ### The root directory -/

variable (bm : ℕ → UInt8) {t : FcfsTable}

theorem devGetFileSeq_written (hlast : LastBelow a.fsHead) (hnow : a.fsHead.ctime = now)
    (ht : (fmtrTable now).Same t) :
    ∃ s, devGetFileSeq a (mountedSt d' bm t) 0 = some (rootNodes, s) ∧ s.dev = d' := by
  have hlen : (0 : ℤ) < tableLen := by decide
  have hroot : RootEntry t := ⟨ht.clrs 0 (le_refl 0) hlen 0 (by decide),
    ht.clrs 0 (le_refl 0) hlen 13 (by decide)⟩
  have hs1 : 0 < s1Len a := by
    have hblk := hl.blk
    have hsec := hl.sector
    unfold s1Len
    omega
  have hnodes : nodesOf (fmtrBlockList now).entrs 0 0 = rootNodes := nodesOf_root fun _ => rfl
  have hsort : sortNodes rootNodes = rootNodes := by decide
  obtain ⟨c, hseq, -⟩ := devGetFileSeq_root_of (s := mountedSt d' bm t) hroot hs1
    (devReadCtable_root hl hw hlast hnow) (CacheOk.of_ne (show (-1 : ℤ) ≠ 0 by decide)) rfl
    (by rw [hnodes]; decide)
  rw [hnodes, hsort] at hseq
  exact ⟨_, hseq, rfl⟩

theorem devReadDir_written (hlast : LastBelow a.fsHead) (hnow : a.fsHead.ctime = now)
    (hecb : Ecb a.ciph) (ht : (fmtrTable now).Same t) :
    ∃ s, devReadDir a (mountedSt d' bm t) 0 = some (none, s) := by
  have hok : SeqOk a rootNodes := seqOk_root hl.clu (List.Perm.refl _)
  obtain ⟨s, hseq, rfl⟩ := devGetFileSeq_written hl hw bm hlast hnow ht
  have hpages : ∀ k < rootNodes.length,
      devReadById a s.dev k rootNodes rootNodes.length = some (some fun _ => 0) := by
    intro k hk
    obtain ⟨b, hb, rfl⟩ := hok.exists_num hk
    obtain ⟨-, -, h1, h7⟩ := hok.inVol b hb
    have hcid : b.cid = 0 := by
      obtain ⟨i, -, rfl⟩ := List.mem_map.mp hb
      rfl
    unfold devReadById
    rw [seqLookup_hit hok hb]
    refine Option.bind_eq_some_iff.mpr ⟨_, rfl, ?_⟩
    dsimp only
    rw [hcid]
    exact Option.bind_eq_some_iff.mpr ⟨_, devReadBlock_root hl hw hlast hecb h1 h7, rfl⟩
  refine ⟨s, Option.bind_eq_some_iff.mpr ⟨_, hseq, ?_⟩⟩
  refine Option.bind_eq_some_iff.mpr ⟨_, readDirLoop_of_pages hpages _ (by omega), ?_⟩
  have hzero : ∀ tmp : Buf, leNat 4 (fetch a.lblkSz (fun _ _ => 0) 0 rootNodes.length 0 tmp) = 0 := by
    intro tmp
    have hlen : rootNodes.length = 7 := by decide
    have hblk := hl.blk
    have hsec := hl.sector
    refine Eq.trans (leNat_congr fun i hi => ?_) (show leNat 4 (fun _ => 0) = 0 by decide)
    rw [fetch_apply, hlen, if_pos (by omega)]
    rfl
  dsimp only
  rw [hzero]
  rfl

end Read

/-- **The driver mounts what the formatter writes.** -/
theorem mounts_formatted (a : Args) (junk : Buf) (secSz secCnt : UInt32) (now : UInt64)
    (label : Fin 255 → UInt8) (d d' : Dev) (hhead : a.fsHead = fmtrHead secSz secCnt now label)
    (h0 : 512 ≤ secSz.toNat) (hs : secSz.toNat ≤ 65535) (h16 : 16 ∣ secSz.toNat)
    (hfit : Fits a.fsHead) (hlast : LastBelow a.fsHead) (hecb : Ecb a.ciph)
    (hdev : secSz.toNat * secCnt.toNat ≤ d.size) (hold : NoOldTables a d)
    (hmain : fmtrMain a.ciph junk secSz secCnt now label d = some d') :
    ∃ bm t, MountsEmpty a secSz.toNat d' bm t := by
  have hl := layout_fmtrHead hhead h0 hs h16 hfit
  have hnow : a.fsHead.ctime = now := by rw [hhead]; rfl
  have hhash : a.fsHead.hashsum = UInt64.ofNat sizeofHead ^^^ a.fsHead.ctime := by rw [hhead]; rfl
  have hdata := hl.data
  have hblk := hl.blk
  have hin : InVol a 0 0 := ⟨le_refl 0, by have := hl.clu; omega, by decide⟩
  have hw : Written a.ciph junk a.fsHead now d d' :=
    fmtrMain_written hhead (by omega) (by unfold Args.lblkSz at hblk; omega) (hlast.blkAddr_lt hin) hmain
  have hcnt : a.fsHead.blkCnt.toNat * a.lblkSz ≤ d.size := by
    rw [hhead, blkCnt_fmtrHead, hblk, ← Nat.mul_assoc, Nat.mul_comm]
    exact (Nat.mul_le_mul_left _ (Nat.div_mul_le_self _ 2)).trans hdev
  obtain ⟨bm, hbm, hzero⟩ := readBitmap_written hl hw
  obtain ⟨t, ht, hsame⟩ := readTable_written hl hw hnow
  refine ⟨bm, t, ?_, hzero, fun f h0 hf => ?_, ?_, devReadDir_written hl hw bm hlast hnow hecb hsame,
    fun c h1 hc => ⟨_, devReadCtable_rest hl hw hlast hold h1 hc hcnt, fun _ => rfl⟩⟩
  · have hsz : secSz.toNat * blockSize = a.lblkSz := by rw [hblk, blockSize, Nat.mul_comm]
    have hbtm : a.fsHead.lblkSz * a.fsHead.bmpLen.toNat = a.btmBlkLen := Nat.mul_comm _ _
    have htbl : a.fsHead.lblkSz * a.fsHead.tblLen.toNat = a.tblBlkLen := Nat.mul_comm _ _
    unfold devMount
    dsimp only
    rw [hsz]
    refine Option.bind_eq_some_iff.mpr ⟨_, readHead_written hl hw hhash, ?_⟩
    rw [hbtm, htbl]
    refine Option.bind_eq_some_iff.mpr ⟨_, hbm, ?_⟩
    exact Option.bind_eq_some_iff.mpr ⟨_, ht, rfl⟩
  · rw [hsame.lnk f h0 hf]
    by_cases hf0 : f = 0
    · simp [fmtrTable, hf0]
    · simp [fmtrTable, hf0, TableEntry.zero]
  · obtain ⟨s, hseq, -⟩ := devGetFileSeq_written hl hw bm hlast hnow hsame
    exact ⟨s, hseq⟩

/-! ### The bits of the clusters -/

section Bits
variable {a : Args} {secSz : ℕ} {d : Dev} {bm : ℕ → UInt8} {t : FcfsTable}

theorem MountsEmpty.fresh (h : MountsEmpty a secSz d bm t)
    (hroom : a.cluCnt ≤ 8 * a.fsHead.bmpLen.toNat * a.lblkSz) : MountsFresh a secSz d bm t := by
  refine ⟨h, fun c h0 hc => ?_⟩
  have hbtm : 8 * a.fsHead.bmpLen.toNat * a.lblkSz = 8 * a.btmBlkLen := Nat.mul_assoc _ _ _
  have hbyte : c.toNat / 8 < a.btmBlkLen := by omega
  rw [full_of_nonneg _ h0, h.bytes _ hbyte, bitSet_zero]

theorem MountsEmpty.behind (h : MountsEmpty a secSz d bm t) {i : ℕ} (hi : a.btmBlkLen ≤ i) :
    bm i = a.junk i := by
  have hmount := h.mount
  have hlen : a.fsHead.lblkSz * a.fsHead.bmpLen.toNat = a.btmBlkLen := Nat.mul_comm _ _
  unfold devMount at hmount
  obtain ⟨head, -, hmount⟩ := Option.bind_eq_some_iff.mp hmount
  obtain ⟨bitmap, hread, hmount⟩ := Option.bind_eq_some_iff.mp hmount
  obtain ⟨table, -, heq⟩ := Option.bind_eq_some_iff.mp hmount
  obtain ⟨rfl, hrest⟩ := Prod.mk.inj (Option.some.inj heq)
  obtain ⟨rfl, -⟩ := Prod.mk.inj hrest
  unfold readBitmap at hread
  obtain ⟨b, -, heq⟩ := Option.bind_eq_some_iff.mp hread
  rw [← Option.some.inj heq, hlen]
  exact if_neg (by omega)

/-- A cluster without a bit in the bitmap reads as full when the memory behind is all ones. -/
theorem MountsFresh.room (h : MountsFresh { a with junk := fun _ => 255 } secSz d bm t) :
    a.cluCnt ≤ 8 * a.fsHead.bmpLen.toNat * a.lblkSz := by
  by_contra hlt
  have hbtm : 8 * a.fsHead.bmpLen.toNat * a.lblkSz = 8 * a.btmBlkLen := Nat.mul_assoc _ _ _
  have hbit := h.bits ((8 * a.btmBlkLen : ℕ) : ℤ) (by omega) (show _ < (a.cluCnt : ℤ) by omega)
  have hbehind := h.behind (i := 8 * a.btmBlkLen / 8) (show a.btmBlkLen ≤ _ by omega)
  rw [full_of_nonneg _ (by omega), Int.toNat_natCast, hbehind, Nat.mul_mod_right] at hbit
  exact Bool.false_ne_true (hbit.symm.trans (bitSet_255 (by decide)))

end Bits

/-- **Whatever the memory held, the driver mounts a fresh volume exactly when the bitmap has a bit for every
cluster.** -/
theorem mountsFresh_iff (a : Args) (junk : Buf) (secSz secCnt : UInt32) (now : UInt64)
    (label : Fin 255 → UInt8) (d d' : Dev) (hhead : a.fsHead = fmtrHead secSz secCnt now label)
    (h0 : 512 ≤ secSz.toNat) (hs : secSz.toNat ≤ 65535) (h16 : 16 ∣ secSz.toNat)
    (hfit : Fits a.fsHead) (hlast : LastBelow a.fsHead) (hecb : Ecb a.ciph)
    (hdev : secSz.toNat * secCnt.toNat ≤ d.size) (hold : NoOldTables a d)
    (hmain : fmtrMain a.ciph junk secSz secCnt now label d = some d') :
    (∀ mem, ∃ bm t, MountsFresh { a with junk := mem } secSz.toNat d' bm t) ↔
      a.cluCnt ≤ 8 * a.fsHead.bmpLen.toNat * a.lblkSz := by
  constructor
  · intro h
    obtain ⟨bm, t, hfresh⟩ := h fun _ => 255
    exact hfresh.room
  · intro hroom mem
    obtain ⟨bm, t, hempty⟩ := mounts_formatted { a with junk := mem } junk secSz secCnt now label d d' hhead h0 hs
      h16 hfit hlast hecb hdev hold hmain
    exact ⟨bm, t, hempty.fresh hroom⟩

/-! ### The formatter completes -/

theorem putAll_eq {n : ℕ} {d : Dev} (hio : IoOk n d) {pos len : ℕ} (b : Buf) (hle : pos + len ≤ n) :
    putAll d pos b len = some (put d pos b len) := by
  unfold putAll
  rw [hio.fwrite b hle]
  exact if_neg (not_not.mpr rfl)

/-- A device that holds the first cluster and fails no write is formatted. -/
theorem fmtrMain_completes {c : Cipher} (junk : Buf) {secSz secCnt : UInt32} {now : UInt64}
    {label : Fin 255 → UInt8} {h : FcfsHead} (hhead : h = fmtrHead secSz secCnt now label)
    (hdta : 1 + h.bmpLen.toNat + h.tblLen.toNat ≤ h.dtaBeg.toNat)
    (hsmall : h.dtaBeg.toNat * h.lblkSz < 2 ^ 31) {d : Dev}
    (hio : IoOk (h.dtaBeg.toNat * h.lblkSz + 8 * h.lblkSz) d) :
    ∃ d', fmtrMain c junk secSz secCnt now label d = some d' := by
  have hmeta := Nat.mul_le_mul_right h.lblkSz hdta
  rw [Nat.add_mul, Nat.add_mul, Nat.one_mul] at hmeta
  have hbtm : cint (h.bmpLen.toNat * h.lblkSz : ℕ) = (h.bmpLen.toNat * h.lblkSz : ℕ) :=
    cint_of_lt (by omega) (by omega)
  have htbl : cint (h.tblLen.toNat * h.lblkSz : ℕ) = (h.tblLen.toNat * h.lblkSz : ℕ) :=
    cint_of_lt (by omega) (by omega)
  have hclu : h.lblkSz * (bloksPerCluster - 1) = 7 * h.lblkSz := Nat.mul_comm _ _
  have hpos : h.dtaBeg.toNat * h.lblkSz % 2 ^ 32 = h.dtaBeg.toNat * h.lblkSz :=
    Nat.mod_eq_of_lt (by omega)
  unfold fmtrMain
  rw [← hhead]
  dsimp only
  rw [hbtm, htbl, hpos, hclu, Int.toNat_natCast, Int.toNat_natCast]
  rw [putAll_eq hio _ (by omega), Option.bind_eq_bind, Option.bind_some, if_neg (by omega)]
  have hio1 := hio.put 0 (c.encrypt h.lblkSz (cut sizeofHead h.bytes)) h.lblkSz
  rw [putAll_eq hio1 _ (by omega), Option.bind_some, if_neg (by omega)]
  have hio2 := hio1.put h.lblkSz (fun _ => 0) (h.bmpLen.toNat * h.lblkSz)
  rw [putAll_eq hio2 _ (by omega), Option.bind_some]
  have hio3 := hio2.put (h.lblkSz + h.bmpLen.toNat * h.lblkSz)
    (c.encrypt (h.tblLen.toNat * h.lblkSz) (fmtrTable now).bytes) (h.tblLen.toNat * h.lblkSz)
  rw [putAll_eq hio3 _ (by omega), Option.bind_some]
  exact ⟨_, putAll_eq (hio3.put _ _ _) _ (by omega)⟩

/-! ### A device full of zeros -/

/-- A device of zeros. -/
def blankDev (size : ℕ) : Dev := ⟨size, fun _ => 0, fun _ => none, 0, [], []⟩

theorem ecb_plain : Ecb plainCipher := by
  refine ⟨fun b => b, fun n _ b k hk => ?_⟩
  have hmod : 16 * (k / 16) + k % 16 = k := Nat.div_add_mod k 16
  rw [Cipher.encrypt, dif_pos hk]
  simp only [plainCipher, hmod]

theorem noOldTables_blank (h : FcfsHead) (hnow : h.ctime = 1) (size : ℕ) :
    NoOldTables (imageArgs h) (blankDev size) := by
  intro c _ _
  have hsum : getHashsum (imageArgs h) (BlockList.ofBytes fun _ => 0) =
      ((List.finRange 7).foldl (fun sum _ => sum + 0) (0 : UInt32)).toUInt64 ^^^ h.ctime := rfl
  show (BlockList.ofBytes fun _ => 0).hashsum ≠ getHashsum (imageArgs h) (BlockList.ofBytes fun _ => 0)
  rw [hsum, hnow]
  decide

/-- A device of 2243 blocks of zeros is formatted and mounts, whatever the memory of the driver holds. -/
theorem mountsFresh_blank : ∃ d', fmtrMain plainCipher (fun _ => 0) 512 4486 1 (fun _ => 0)
    (blankDev (512 * 4486)) = some d' ∧ ∀ mem, ∃ bm t,
      MountsFresh { imageArgs (fmtrHead 512 4486 1 fun _ => 0) with junk := mem } 512 d' bm t := by
  obtain ⟨d', hd'⟩ : ∃ d', fmtrMain plainCipher (fun _ => 0) 512 4486 1 (fun _ => 0)
      (blankDev (512 * 4486)) = some d' :=
    fmtrMain_completes _ rfl (by decide) (by decide) ⟨by decide, fun _ => rfl⟩
  exact ⟨d', hd', (mountsFresh_iff (imageArgs (fmtrHead 512 4486 1 fun _ => 0)) (fun _ => 0) 512 4486 1
    (fun _ => 0) _ d' rfl (by decide) (by decide) (by decide) (by unfold Fits; decide) (by decide)
    ecb_plain (le_refl _) (noOldTables_blank _ rfl _) hd').mpr (by decide)⟩

/-- **A bitmap without a block**: a device of 2240 blocks has seven clusters and no byte for their bits. It is
formatted, and a driver over memory of ones mounts it with every cluster full. -/
theorem not_mountsFresh_blank : Fits (fmtrHead 512 4480 1 fun _ => 0) ∧
    LastBelow (fmtrHead 512 4480 1 fun _ => 0) ∧ Ecb plainCipher ∧
    NoOldTables (imageArgs (fmtrHead 512 4480 1 fun _ => 0)) (blankDev (512 * 4480)) ∧
    ∃ d', fmtrMain plainCipher (fun _ => 0) 512 4480 1 (fun _ => 0) (blankDev (512 * 4480)) = some d' ∧
      ¬ ∃ bm t, MountsFresh { imageArgs (fmtrHead 512 4480 1 fun _ => 0) with junk := fun _ => 255 } 512
        d' bm t := by
  obtain ⟨d', hd'⟩ : ∃ d', fmtrMain plainCipher (fun _ => 0) 512 4480 1 (fun _ => 0)
      (blankDev (512 * 4480)) = some d' :=
    fmtrMain_completes _ rfl (by decide) (by decide) ⟨by decide, fun _ => rfl⟩
  refine ⟨by unfold Fits; decide, by decide, ecb_plain, noOldTables_blank _ rfl _, d', hd', ?_⟩
  rintro ⟨bm, t, hfresh⟩
  exact absurd hfresh.room (by decide)

end Fcfs.Fmtr.Mounts
