import Fcfs.Vol.Bits
import Fcfs.Vol.Persist

/-! # The volume as tables and blocks

The device seen through the driver's own readers: `tab a d cid` are the seven entries
`dev_read_ctable` gives for a cluster, `data a d cid bid` are the bytes of one of its blocks, and
both are constant outside of the volume. The four writes of the driver are devices of their own,
`putTab`, `putBlk`, `putBitmap` and `putTable`; what each does to the two views is an equation
between functions, so that the operations above can be followed without bytes. -/

namespace Fcfs.Vol

open Lib.Bytes Persist

/-- The cluster table as the driver reads it. -/
def ctable (a : Args) (d : Dev) (cid : ℤ) : BlockList :=
  if 0 ≤ cid ∧ cid < a.cluCnt then (devReadCtable a d cid).getD BlockList.zero else BlockList.zero

/-- The entries of the cluster table. -/
def tab (a : Args) (d : Dev) (cid : ℤ) : Fin 7 → BlkEnt := (ctable a d cid).entrs

/-- The stored bytes of a block that is no cluster table. -/
def data (a : Args) (d : Dev) (cid : ℤ) (bid : ℕ) : Buf :=
  if InVol a cid bid ∧ 1 ≤ bid then cut a.lblkSz (shift d.bytes (blkAddr a cid bid)) else fun _ => 0

/-! ### Devices after a write -/

/-- The device with block `bid` of cluster `cid` overwritten. -/
def putBlk (a : Args) (d : Dev) (cid : ℤ) (bid : ℕ) (b : Buf) : Dev :=
  { put d (blkAddr a cid bid) b a.lblkSz with log := (cid, bid) :: d.log }

/-- The device with a cluster table overwritten. -/
def putTab (a : Args) (d : Dev) (cid : ℤ) (bl : BlockList) : Dev :=
  putBlk a d cid 0 (cut sizeofBlockList { bl with hashsum := getHashsum a bl }.bytes)

/-- The device with the bitmap region overwritten. -/
def putBitmap (a : Args) (d : Dev) (bm : ℕ → UInt8) : Dev :=
  put d a.lblkSz (cut (a.cluCnt / 8) bm) a.btmBlkLen

/-- The device with the table region overwritten. -/
def putTable (a : Args) (d : Dev) (t : FcfsTable) : Dev :=
  put d (a.lblkSz + a.btmBlkLen) (a.ciph.encrypt a.tblBlkLen (cut sizeofTable t.bytes)) a.tblBlkLen

/-- What every statement about a mounted volume assumes. -/
structure Mounted (a : Args) (d : Dev) : Prop where
  geo : Geo a.fsHead
  io : IoOk (volLen a.fsHead) d

section Mounted
variable {a : Args} {d : Dev} (hm : Mounted a d)
include hm

theorem Mounted.cluCnt_lt : a.cluCnt < 2 ^ 31 := by
  have hexact := hm.geo.exact
  have hL := hm.geo.le_lblkSz
  have hle : a.cluCnt ≤ volLen a.fsHead :=
    (show a.fsHead.cluCnt.toNat ≤ a.fsHead.dtaBeg.toNat + bloksPerCluster * a.fsHead.cluCnt.toNat by
      unfold bloksPerCluster
      omega).trans (Nat.le_mul_of_pos_right _ (by omega))
  omega

theorem Mounted.putBlk (cid : ℤ) (bid : ℕ) (b : Buf) : Mounted a (putBlk a d cid bid b) :=
  ⟨hm.geo, hm.io.room, hm.io.full⟩

theorem Mounted.putTab (cid : ℤ) (bl : BlockList) : Mounted a (putTab a d cid bl) :=
  hm.putBlk _ _ _

theorem Mounted.putBitmap (bm : ℕ → UInt8) : Mounted a (putBitmap a d bm) :=
  ⟨hm.geo, hm.io.put _ _ _⟩

theorem Mounted.putTable (t : FcfsTable) : Mounted a (putTable a d t) :=
  ⟨hm.geo, hm.io.put _ _ _⟩

/-! ### The primitives -/

theorem Mounted.devReadBlock_eq {cid : ℤ} {bid : ℕ} (hin : InVol a cid bid) (crypt : Bool) :
    devReadBlock a d cid bid crypt = some (if crypt
      then a.ciph.decrypt a.lblkSz (cut a.lblkSz (shift d.bytes (blkAddr a cid bid)))
      else cut a.lblkSz (shift d.bytes (blkAddr a cid bid))) := by
  unfold devReadBlock
  rw [blockPos_eq hm.geo hin, if_neg (by omega), Int.toNat_natCast, hm.io.fread (blkAddr_add_le hin)]
  rfl

theorem Mounted.read_data {cid : ℤ} {bid : ℕ} (hin : InVol a cid bid) (hb : 1 ≤ bid) (crypt : Bool) :
    devReadBlock a d cid bid crypt =
      some (if crypt then a.ciph.decrypt a.lblkSz (data a d cid bid) else data a d cid bid) := by
  have hdata : data a d cid bid = cut a.lblkSz (shift d.bytes (blkAddr a cid bid)) := if_pos ⟨hin, hb⟩
  rw [hm.devReadBlock_eq hin, hdata]

omit hm in
theorem Mounted.devWriteBlock_eq {s : St} (hm : Mounted a s.dev) {cid : ℤ} {bid : ℕ}
    (hin : InVol a cid bid) (b : Buf) (len : ℕ) (crypt : Bool) :
    let tmp := if crypt then a.ciph.encrypt a.lblkSz (cut len b) else cut len b
    devWriteBlock a s cid bid b len crypt =
      some (if a.lblkSz = len then 0 else -1, { s with dev := Vol.putBlk a s.dev cid bid tmp }) := by
  unfold devWriteBlock
  dsimp only
  rw [blockPos_eq hm.geo hin, if_neg (by omega), Int.toNat_natCast,
    hm.io.fwrite _ (blkAddr_add_le hin)]
  dsimp only
  rw [if_pos (rfl : a.lblkSz = a.lblkSz)]
  rfl

omit hm in
theorem Mounted.write_plain {s : St} (hm : Mounted a s.dev) {cid : ℤ} {bid : ℕ}
    (hin : InVol a cid bid) (b : Buf) :
    devWriteBlock a s cid bid b a.lblkSz false =
      some (0, { s with dev := Vol.putBlk a s.dev cid bid (cut a.lblkSz b) }) := by
  rw [Mounted.devWriteBlock_eq hm hin]
  simp only [Bool.false_eq_true, if_false, if_true]

omit hm in
theorem Mounted.write_crypt {s : St} (hm : Mounted a s.dev) {cid : ℤ} {bid : ℕ}
    (hin : InVol a cid bid) (b : Buf) :
    devWriteBlock a s cid bid b a.lblkSz true =
      some (0, { s with dev := Vol.putBlk a s.dev cid bid (a.ciph.encrypt a.lblkSz b) }) := by
  rw [Mounted.devWriteBlock_eq hm hin]
  simp only [if_true, a.ciph.encrypt_cut]

theorem Mounted.devReadCtable_eq {cid : ℤ} (h0 : 0 ≤ cid) (hc : cid < a.cluCnt) :
    devReadCtable a d cid = some (ctable a d cid) := by
  have hin : InVol a cid 0 := ⟨h0, hc, by decide⟩
  have hread := hm.devReadBlock_eq hin false
  unfold ctable
  rw [if_pos ⟨h0, hc⟩]
  unfold devReadCtable
  rw [hread]
  simp only [Option.bind_eq_bind, Option.bind_some, Option.getD_some]

end Mounted

/-! ### The views after a write -/

section Views
variable {a : Args} {d : Dev}

/-- The entries of a table are read from block 0 of its cluster. -/
theorem tab_congr (hm : Mounted a d) {d' : Dev} (hm' : Mounted a d') {cid : ℤ}
    (h : ∀ i < a.lblkSz, d'.bytes (blkAddr a cid 0 + i) = d.bytes (blkAddr a cid 0 + i)) :
    tab a d' cid = tab a d cid := by
  unfold tab ctable
  split_ifs with hc
  · have hin : InVol a cid 0 := ⟨hc.1, hc.2, by decide⟩
    have hcut : cut a.lblkSz (shift d'.bytes (blkAddr a cid 0)) =
        cut a.lblkSz (shift d.bytes (blkAddr a cid 0)) := cut_congr fun i hi => h i hi
    unfold devReadCtable
    rw [hm.devReadBlock_eq hin, hm'.devReadBlock_eq hin, hcut]
  · rfl

theorem data_congr {d' : Dev} {cid : ℤ} {bid : ℕ}
    (h : ∀ i < a.lblkSz, d'.bytes (blkAddr a cid bid + i) = d.bytes (blkAddr a cid bid + i)) :
    data a d' cid bid = data a d cid bid := by
  unfold data
  split_ifs
  · exact cut_congr fun i hi => h i hi
  · rfl

theorem putBlk_bytes {cid cid' : ℤ} {bid bid' : ℕ} (b : Buf) (hin : InVol a cid bid)
    (hin' : InVol a cid' bid') (hne : ¬ (cid' = cid ∧ bid' = bid)) {i : ℕ} (hi : i < a.lblkSz) :
    (putBlk a d cid bid b).bytes (blkAddr a cid' bid' + i) = d.bytes (blkAddr a cid' bid' + i) := by
  have hdisj := blkAddr_disjoint hin' hin hne
  refine memcpy_out ?_
  omega

theorem data_putBlk {cid : ℤ} {bid : ℕ} (b : Buf) (hin : InVol a cid bid) (hb : 1 ≤ bid) :
    data a (putBlk a d cid bid b) =
      fun c k => if c = cid ∧ k = bid then cut a.lblkSz b else data a d c k := by
  funext c k
  split_ifs with heq
  · obtain ⟨rfl, rfl⟩ := heq
    unfold data
    rw [if_pos ⟨hin, hb⟩]
    refine cut_congr fun i hi => ?_
    rw [shift_apply]
    exact (memcpy_in (by omega) (by omega)).trans (by rw [Nat.add_sub_cancel_left])
  · by_cases hin' : InVol a c k
    · exact data_congr fun i hi => putBlk_bytes b hin hin' heq hi
    · unfold data
      rw [if_neg (fun h => hin' h.1), if_neg (fun h => hin' h.1)]

theorem tab_putBlk (hm : Mounted a d) {cid : ℤ} {bid : ℕ} (b : Buf) (hin : InVol a cid bid)
    (hb : 1 ≤ bid) : tab a (putBlk a d cid bid b) = tab a d := by
  funext c
  by_cases hc : 0 ≤ c ∧ c < a.cluCnt
  · refine tab_congr hm (hm.putBlk cid bid b) fun i hi => ?_
    exact putBlk_bytes b hin ⟨hc.1, hc.2, by decide⟩ (by omega) hi
  · unfold tab ctable
    rw [if_neg hc, if_neg hc]

/-- A cluster table is written: it reads back as it was handed over. -/
theorem tab_putTab (hm : Mounted a d) {cid : ℤ} (bl : BlockList) (h0 : 0 ≤ cid)
    (hc : cid < a.cluCnt) :
    tab a (putTab a d cid bl) = Function.update (tab a d) cid bl.entrs := by
  have hin : InVol a cid 0 := ⟨h0, hc, by decide⟩
  funext c
  by_cases heq : c = cid
  · subst heq
    rw [Function.update_self]
    have hL := hm.geo.le_lblkSz
    have hread : cut a.lblkSz (shift (putTab a d c bl).bytes (blkAddr a c 0)) =
        cut a.lblkSz (cut sizeofBlockList { bl with hashsum := getHashsum a bl }.bytes) := by
      refine cut_congr fun i hi => ?_
      rw [shift_apply]
      exact (memcpy_in (by omega) (by omega)).trans (by rw [Nat.add_sub_cancel_left])
    have hdec : BlockList.ofBytes (cut a.lblkSz
        (cut sizeofBlockList { bl with hashsum := getHashsum a bl }.bytes)) =
        { bl with hashsum := getHashsum a bl } := by
      refine Eq.trans (BlockList.ofBytes_congr fun i hi => ?_) (BlockList.ofBytes_bytes _)
      rw [cut_of_lt _ (by unfold sizeofBlockList at hi; unfold Args.lblkSz; omega), cut_of_lt _ hi]
    unfold tab ctable devReadCtable
    rw [if_pos ⟨h0, hc⟩, (hm.putTab c bl).devReadBlock_eq hin]
    simp only [Bool.false_eq_true, if_false, Option.bind_eq_bind, Option.bind_some, Option.getD_some]
    rw [hread, hdec]
    simp [getHashsum]
  · rw [Function.update_of_ne heq]
    by_cases hc' : 0 ≤ c ∧ c < a.cluCnt
    · refine tab_congr hm (hm.putTab cid bl) fun i hi => ?_
      exact putBlk_bytes _ hin ⟨hc'.1, hc'.2, by decide⟩ (fun h => heq h.1) hi
    · unfold tab ctable
      rw [if_neg hc', if_neg hc']

theorem data_putTab {cid : ℤ} (bl : BlockList) (h0 : 0 ≤ cid) (hc : cid < a.cluCnt) :
    data a (putTab a d cid bl) = data a d := by
  funext c k
  by_cases hin' : InVol a c k ∧ 1 ≤ k
  · exact data_congr fun i hi =>
      putBlk_bytes _ ⟨h0, hc, by decide⟩ hin'.1 (by have := hin'.2; omega) hi
  · unfold data
    rw [if_neg hin', if_neg hin']

theorem views_put (hm : Mounted a d) {pos len : ℕ} (b : Buf) (hle : pos + len ≤ metaLen a.fsHead) :
    tab a (put d pos b len) = tab a d ∧ data a (put d pos b len) = data a d := by
  have hbytes : ∀ cid bid i, (put d pos b len).bytes (blkAddr a cid bid + i) =
      d.bytes (blkAddr a cid bid + i) := by
    intro cid bid i
    have hmeta := metaLen_le_blkAddr a cid bid
    exact memcpy_out (by omega)
  constructor
  · funext c
    exact tab_congr hm ⟨hm.geo, hm.io.put _ _ _⟩ fun i _ => hbytes c 0 i
  · funext c k
    exact data_congr fun i _ => hbytes c k i

theorem views_putBitmap (hm : Mounted a d) (bm : ℕ → UInt8) :
    tab a (putBitmap a d bm) = tab a d ∧ data a (putBitmap a d bm) = data a d := by
  have hle := hm.geo.le_metaLen
  exact views_put hm _ (by unfold Args.btmBlkLen Args.lblkSz; omega)

theorem views_putTable (hm : Mounted a d) (t : FcfsTable) :
    tab a (putTable a d t) = tab a d ∧ data a (putTable a d t) = data a d := by
  have hle := hm.geo.le_metaLen
  exact views_put hm _ (by unfold Args.btmBlkLen Args.tblBlkLen Args.lblkSz; omega)

end Views

/-! ### The driver's writes -/

section Writes
variable {a : Args} {s : St} (hm : Mounted a s.dev)
include hm

theorem devWriteBitmap_putBitmap :
    devWriteBitmap a s = (0, { s with dev := putBitmap a s.dev s.fsBitmap }) :=
  devWriteBitmap_eq hm.geo.toLayout (hm.io.mono (metaLen_le_volLen _))

theorem devWriteTable_putTable :
    devWriteTable a s = (0, { s with dev := putTable a s.dev s.fsTable }) :=
  devWriteTable_eq hm.geo.toLayout (hm.io.mono (metaLen_le_volLen _))

omit hm in
theorem devWriteTable_dev {d : Dev} (hm : Mounted a d) {t : St} (ht : t.dev = d) :
    devWriteTable a t = (0, { t with dev := putTable a d t.fsTable }) := by
  subst ht
  exact devWriteTable_putTable hm

/-- `dev_write_ctable` never reports success: it compares the bytes stored with the size of the
table. -/
theorem devWriteCtable_putTab {cid : ℤ} (bl : BlockList) (h0 : 0 ≤ cid) (hc : cid < a.cluCnt) :
    devWriteCtable a s cid bl = some (-1, { s with dev := putTab a s.dev cid bl }) := by
  have hL := hm.geo.le_lblkSz
  unfold devWriteCtable
  rw [Mounted.devWriteBlock_eq hm ⟨h0, hc, by decide⟩]
  simp only [Bool.false_eq_true, if_false]
  rw [if_neg (by unfold sizeofBlockList Args.lblkSz; omega)]
  rfl

theorem updBitmap_eq {cid : ℤ} (bl : BlockList) (h0 : 0 ≤ cid) :
    ∃ d bm, updBitmap a s bl cid = some { s with dev := d, fsBitmap := bm } ∧
      Mounted a d ∧ tab a d = tab a s.dev ∧ data a d = data a s.dev ∧ d.log = s.dev.log ∧
      full bm = Function.update (full s.fsBitmap) cid (taken bl.entrs) := by
  obtain ⟨ch, bm, hupd, hfull, -⟩ := devUpdBitmap_eq s.fsBitmap bl h0
  unfold updBitmap
  rw [hupd, Option.bind_eq_bind, Option.bind_some]
  cases ch with
  | false => exact ⟨s.dev, bm, rfl, hm, rfl, rfl, rfl, hfull⟩
  | true =>
    obtain ⟨htab, hdata⟩ := views_putBitmap hm bm
    refine ⟨putBitmap a s.dev bm, bm, ?_, hm.putBitmap bm, htab, hdata, rfl, hfull⟩
    show some (devWriteBitmap a { s with fsBitmap := bm }).2 = _
    rw [devWriteBitmap_putBitmap (s := { s with fsBitmap := bm }) hm]

/-- **A cluster table is rewritten and its bit brought up to date.** -/
theorem writeCtable_updBitmap {cid : ℤ} (bl : BlockList) (h0 : 0 ≤ cid) (hc : cid < a.cluCnt) :
    ∃ d bm, (devWriteCtable a s cid bl >>= fun r => updBitmap a r.2 bl cid) =
        some { s with dev := d, fsBitmap := bm } ∧
      Mounted a d ∧ tab a d = Function.update (tab a s.dev) cid bl.entrs ∧
      data a d = data a s.dev ∧ d.log = (cid, 0) :: s.dev.log ∧
      full bm = Function.update (full s.fsBitmap) cid (taken bl.entrs) := by
  have hm' : Mounted a (putTab a s.dev cid bl) := hm.putTab cid bl
  obtain ⟨d, bm, hop, hmd, htab, hdata, hlog, hfull⟩ :=
    updBitmap_eq (s := { s with dev := putTab a s.dev cid bl }) hm' bl h0
  rw [devWriteCtable_putTab hm bl h0 hc, Option.bind_eq_bind, Option.bind_some]
  exact ⟨d, bm, hop, hmd, htab.trans (tab_putTab hm bl h0 hc), hdata.trans (data_putTab bl h0 hc),
    hlog, hfull⟩

end Writes

end Fcfs.Vol
