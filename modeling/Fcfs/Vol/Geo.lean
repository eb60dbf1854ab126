import Fcfs.Ops

/-! # The volume the driver works on

What every statement about a mounted volume assumes of it. `Layout` is about the header: blocks of
at least two sectors of 512 bytes, a table region that holds the table, a data area behind it and
the bitmap. `Regions` adds that the bitmap has a bit for every cluster, `Geo` that no byte offset
leaves `int`. `IoOk` is
about the device: it is large enough and no write stops short. On such a volume a seek position is
exact (`blockPos_eq`) and `fread` and `fwrite` do what is asked of them. -/

namespace Fcfs.Vol

open Lib.Bytes

/-- **The metadata regions of a header the driver can work with.** -/
structure Layout (h : FcfsHead) : Prop where
  sector : 512 ≤ h.phyBlkSz.toNat
  block : h.blkSz.toNat = blockSize
  table : sizeofTable ≤ h.tblLen.toNat * h.lblkSz
  data : 1 + h.bmpLen.toNat + h.tblLen.toNat ≤ h.dtaBeg.toNat
  small : (1 + h.bmpLen.toNat + h.tblLen.toNat) * h.lblkSz < 2 ^ 31

/-- **Regions with room for every cluster in the bitmap.** -/
structure Regions (h : FcfsHead) : Prop extends Layout h where
  bitmap : h.cluCnt.toNat ≤ 8 * h.bmpLen.toNat * h.lblkSz

/-- The bytes in front of the data area. -/
def metaLen (h : FcfsHead) : ℕ := h.dtaBeg.toNat * h.lblkSz

/-- The bytes the volume takes on the device. -/
def volLen (h : FcfsHead) : ℕ := (h.dtaBeg.toNat + bloksPerCluster * h.cluCnt.toNat) * h.lblkSz

/-- **A header with exact addresses.** -/
structure Geo (h : FcfsHead) : Prop extends Layout h where
  exact : volLen h < 2 ^ 31

/-- **Successful I/O**: the device holds `n` bytes and no write stops short. -/
structure IoOk (n : ℕ) (d : Dev) : Prop where
  room : n ≤ d.size
  full : ∀ k, d.short k = none

/-- The device with `b` written at `pos`, as a write that succeeds leaves it. -/
def put (d : Dev) (pos : ℕ) (b : Buf) (len : ℕ) : Dev :=
  { d with bytes := memcpy d.bytes pos b len, writes := d.writes + 1 }

@[simp] theorem put_size (d : Dev) (pos : ℕ) (b : Buf) (len : ℕ) : (put d pos b len).size = d.size :=
  rfl

@[simp] theorem put_log (d : Dev) (pos : ℕ) (b : Buf) (len : ℕ) : (put d pos b len).log = d.log :=
  rfl

@[simp] theorem put_bytes (d : Dev) (pos : ℕ) (b : Buf) (len : ℕ) :
    (put d pos b len).bytes = memcpy d.bytes pos b len := rfl

section Dev
variable {n : ℕ} {d : Dev} (hio : IoOk n d)
include hio

theorem IoOk.mono {m : ℕ} (hle : m ≤ n) : IoOk m d := ⟨hle.trans hio.room, hio.full⟩

theorem IoOk.put (pos : ℕ) (b : Buf) (len : ℕ) : IoOk n (put d pos b len) :=
  ⟨hio.room, hio.full⟩

theorem IoOk.fwrite {pos len : ℕ} (b : Buf) (hle : pos + len ≤ n) :
    d.fwrite pos b len = (len, Vol.put d pos b len) := by
  have hroom := hio.room
  have hst : d.stored pos len = len := by
    unfold Dev.stored
    rw [hio.full, Option.getD_none]
    omega
  unfold Dev.fwrite Vol.put
  rw [hst]

theorem IoOk.fread {pos len : ℕ} (hle : pos + len ≤ n) :
    d.fread pos len = some (cut len (shift d.bytes pos)) :=
  if_pos (hle.trans hio.room)

end Dev

section Layout
variable {h : FcfsHead} (hr : Layout h)
include hr

theorem Layout.lblkSz_eq : h.lblkSz = h.phyBlkSz.toNat * 2 := by
  unfold FcfsHead.lblkSz
  rw [hr.block, blockSize]

theorem Layout.le_lblkSz : 1024 ≤ h.lblkSz := by
  have hsec := hr.sector
  rw [hr.lblkSz_eq]
  omega

theorem Layout.le_metaLen : h.lblkSz + h.bmpLen.toNat * h.lblkSz + h.tblLen.toNat * h.lblkSz ≤
    metaLen h := by
  have hmul := Nat.mul_le_mul_right h.lblkSz hr.data
  rw [Nat.add_mul, Nat.add_mul, Nat.one_mul] at hmul
  exact hmul

theorem Layout.lblkSz_lt : h.lblkSz < 2 ^ 31 := by
  have hsmall := hr.small
  rw [Nat.add_mul, Nat.add_mul, Nat.one_mul] at hsmall
  omega

omit hr in
theorem metaLen_le_volLen (h : FcfsHead) : metaLen h ≤ volLen h :=
  Nat.mul_le_mul_right _ (Nat.le_add_right _ _)

end Layout

/-! ### Positions of blocks -/

/-- The byte where block `bid` of cluster `cid` begins. -/
def blkAddr (a : Args) (cid : ℤ) (bid : ℕ) : ℕ :=
  (a.fsHead.dtaBeg.toNat + bloksPerCluster * cid.toNat + bid) * a.lblkSz

/-- A block of the data area. -/
def InVol (a : Args) (cid : ℤ) (bid : ℕ) : Prop :=
  0 ≤ cid ∧ cid < a.cluCnt ∧ bid < bloksPerCluster

instance (a : Args) (cid : ℤ) (bid : ℕ) : Decidable (InVol a cid bid) := by
  unfold InVol; infer_instance

theorem blkAddr_add_le {a : Args} {cid : ℤ} {bid : ℕ} (hin : InVol a cid bid) :
    blkAddr a cid bid + a.lblkSz ≤ volLen a.fsHead := by
  obtain ⟨h0, hc, hb⟩ := hin
  have hle : a.fsHead.dtaBeg.toNat + bloksPerCluster * cid.toNat + bid + 1 ≤
      a.fsHead.dtaBeg.toNat + bloksPerCluster * a.fsHead.cluCnt.toNat := by
    unfold Args.cluCnt at hc
    unfold bloksPerCluster at *
    omega
  have hmul := Nat.mul_le_mul_right a.lblkSz hle
  rw [Nat.succ_mul] at hmul
  exact hmul

theorem metaLen_le_blkAddr (a : Args) (cid : ℤ) (bid : ℕ) :
    metaLen a.fsHead ≤ blkAddr a cid bid :=
  Nat.mul_le_mul_right _ (by omega)

theorem blkAddr_disjoint {a : Args} {cid cid' : ℤ} {bid bid' : ℕ} (hin : InVol a cid bid)
    (hin' : InVol a cid' bid') (hne : ¬ (cid = cid' ∧ bid = bid')) :
    blkAddr a cid bid + a.lblkSz ≤ blkAddr a cid' bid' ∨
      blkAddr a cid' bid' + a.lblkSz ≤ blkAddr a cid bid := by
  obtain ⟨h0, hc, hb⟩ := hin
  obtain ⟨h0', hc', hb'⟩ := hin'
  unfold bloksPerCluster at hb hb'
  have hmul : ∀ x y : ℕ, x < y → x * a.lblkSz + a.lblkSz ≤ y * a.lblkSz := by
    intro x y hxy
    rw [← Nat.succ_mul]
    exact Nat.mul_le_mul_right _ hxy
  unfold blkAddr bloksPerCluster
  rcases Nat.lt_trichotomy (8 * cid.toNat + bid) (8 * cid'.toNat + bid') with hlt | heq | hlt
  · exact Or.inl (hmul _ _ (by omega))
  · exact absurd (by omega) hne
  · exact Or.inr (hmul _ _ (by omega))

/-- A block begins behind the product of the cluster size and its cluster number. -/
theorem blkAddr_eq (a : Args) (c bid : ℕ) : blkAddr a c bid =
    a.fsHead.dtaBeg.toNat * a.lblkSz + 8 * a.lblkSz * c + a.lblkSz * bid := by
  unfold blkAddr bloksPerCluster
  rw [Int.toNat_natCast]
  ring

theorem blockPos_of_lt {a : Args} {cid : ℤ} {bid : ℕ} (h0 : 0 ≤ cid) (h8 : 8 * a.lblkSz < 2 ^ 31)
    (hlt : blkAddr a cid bid < 2 ^ 31) : blockPos a cid bid = blkAddr a cid bid := by
  obtain ⟨c, rfl⟩ := Int.eq_ofNat_of_zero_le h0
  rw [blkAddr_eq] at hlt ⊢
  unfold blockPos bloksPerCluster
  simp only
  have hmul : ∀ x y : ℕ, x * y < 2 ^ 31 → cint ((x : ℤ) * y) = ((x * y : ℕ) : ℤ) := by
    intro x y hxy
    rw [← Nat.cast_mul]
    exact cint_of_lt (by omega) (by omega)
  have hadd : ∀ x y : ℕ, x + y < 2 ^ 31 → cint ((x : ℤ) + y) = ((x + y : ℕ) : ℤ) := by
    intro x y hxy
    rw [← Nat.cast_add]
    exact cint_of_lt (by omega) (by omega)
  rw [hmul _ _ (by omega), hmul 8 _ (by omega), hmul _ c (by omega), hmul _ bid (by omega),
    hadd _ _ (by omega), hadd _ _ (by omega)]

/-- **The seek position of a block of the data area is exact.** -/
theorem blockPos_eq {a : Args} (hg : Geo a.fsHead) {cid : ℤ} {bid : ℕ} (hin : InVol a cid bid) :
    blockPos a cid bid = blkAddr a cid bid := by
  have hle := blkAddr_add_le hin
  have hlt : volLen a.fsHead < 2 ^ 31 := hg.exact
  have hL : 1024 ≤ a.lblkSz := hg.le_lblkSz
  obtain ⟨h0, hc, -⟩ := hin
  have hL8 : 8 * a.lblkSz ≤ volLen a.fsHead := by
    refine Nat.mul_le_mul_right _ ?_
    unfold Args.cluCnt at hc
    unfold bloksPerCluster
    omega
  exact blockPos_of_lt h0 (by omega) (by omega)

end Fcfs.Vol
