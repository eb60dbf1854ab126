import Fcfs.Vol.Geo

/-! # Concrete volumes

The volume with given blocks: a device that carries a header and, behind the metadata, the blocks
`blk cid bid`, under the cipher that changes nothing. -/

namespace Fcfs.Vol

open Lib.Bytes

/-- The cipher that changes nothing. -/
def plainCipher : Cipher where
  enc := fun _ b => b
  dec := fun _ b => b
  dec_enc := fun _ _ => rfl

/-- The arguments of a volume with the given header. -/
def imageArgs (h : FcfsHead) : Args := ⟨h, plainCipher, fun _ => 0, 0, 0⟩

/-- The device with the given header and blocks. -/
def image (h : FcfsHead) (blk : ℕ → ℕ → Buf) : Dev where
  size := volLen h
  bytes := fun pos =>
    if pos < metaLen h then h.bytes pos
    else
      let q := pos - metaLen h
      blk (q / h.lblkSz / bloksPerCluster) (q / h.lblkSz % bloksPerCluster) (q % h.lblkSz)
  short := fun _ => none
  writes := 0
  log := []
  lost := []

theorem plain_decrypt (n : ℕ) (b : Buf) : plainCipher.decrypt n b = cut n b := rfl

theorem io_image (h : FcfsHead) (blk : ℕ → ℕ → Buf) : IoOk (volLen h) (image h blk) :=
  ⟨le_refl _, fun _ => rfl⟩

variable {h : FcfsHead} {blk : ℕ → ℕ → Buf}

theorem readHead_image (blk : ℕ → ℕ → Buf) (hr : Layout h) (hhash : h.hashsum = UInt64.ofNat sizeofHead ^^^ h.ctime) :
    readHead plainCipher (image h blk) h.lblkSz = some h := by
  have hle := hr.le_metaLen
  have hL := hr.le_lblkSz
  have hvol := metaLen_le_volLen h
  have hread := (io_image h blk).fread (show 0 + h.lblkSz ≤ volLen h by omega)
  have hdec : FcfsHead.ofBytes (plainCipher.decrypt h.lblkSz
      (cut h.lblkSz (shift (image h blk).bytes 0))) = h := by
    rw [plain_decrypt, cut_cut, shift_zero]
    refine Eq.trans (FcfsHead.ofBytes_congr fun i hi => ?_) (FcfsHead.ofBytes_bytes h)
    unfold sizeofHead at hi
    rw [cut_of_lt _ (by omega)]
    exact if_pos (by omega)
  unfold readHead
  rw [hread, Option.bind_eq_bind, Option.bind_some, hdec]
  simp [hhash]

theorem image_blkAddr (hr : Layout h) {cid : ℤ} {bid i : ℕ} (hb : bid < bloksPerCluster)
    (hi : i < h.lblkSz) :
    (image h blk).bytes (blkAddr (imageArgs h) cid bid + i) = blk cid.toNat bid i := by
  have hL := hr.le_lblkSz
  have haddr : blkAddr (imageArgs h) cid bid + i =
      metaLen h + ((bloksPerCluster * cid.toNat + bid) * h.lblkSz + i) := by
    unfold blkAddr metaLen imageArgs Args.lblkSz
    ring
  have hdiv : ((bloksPerCluster * cid.toNat + bid) * h.lblkSz + i) / h.lblkSz =
      bloksPerCluster * cid.toNat + bid := by
    rw [Nat.mul_comm, Nat.mul_add_div (by omega), Nat.div_eq_of_lt hi, Nat.add_zero]
  have hmod : ((bloksPerCluster * cid.toNat + bid) * h.lblkSz + i) % h.lblkSz = i := by
    rw [Nat.add_comm, Nat.add_mul_mod_self_right, Nat.mod_eq_of_lt hi]
  unfold image
  dsimp only
  rw [haddr, if_neg (by omega), Nat.add_sub_cancel_left, hdiv, hmod,
    Nat.mul_add_div (by unfold bloksPerCluster; omega), Nat.div_eq_of_lt hb, Nat.add_zero,
    Nat.mul_add_mod, Nat.mod_eq_of_lt hb]

end Fcfs.Vol
