import Fcfs.Fmtr.Geometry
import Fcfs.Vol.Image

/-! # Which volumes the driver can address

The seek position of a block is computed in `int`, from a block count of 32 bits, a cluster number
and a block size of up to 65534 bytes. Positions grow with the cluster and the block number, so it
is the last block of the last cluster that decides (`addressingExact_iff`). -/

namespace Fcfs.Fmtr.Address

open Fcfs Fcfs.Vol Fcfs.Fmtr.Geometry

/-- A block of the data area whose cluster number is an `int`. -/
def Named (a : Args) (cid : ℤ) (bid : ℕ) : Prop := InVol a cid bid ∧ cid < 2 ^ 31

/-- The products and sums of the seek position. -/
def terms (a : Args) (c bid : ℕ) : List ℕ :=
  [a.fsHead.dtaBeg.toNat * a.lblkSz, bloksPerCluster * a.lblkSz, bloksPerCluster * a.lblkSz * c,
    a.fsHead.dtaBeg.toNat * a.lblkSz + bloksPerCluster * a.lblkSz * c, a.lblkSz * bid,
    a.fsHead.dtaBeg.toNat * a.lblkSz + bloksPerCluster * a.lblkSz * c + a.lblkSz * bid]

/-- **Block addressing is exact**: the seek position of every block of the data area is the integer
it stands for, nothing on the way to it overflows, the byte ranges behind different seek positions
are disjoint, and none of them begins before the end of the table region. -/
structure AddressingExact (a : Args) : Prop where
  exact : ∀ cid bid, Named a cid bid → blockPos a cid bid = blkAddr a cid bid
  small : ∀ (c : ℕ) bid, Named a c bid → ∀ x ∈ terms a c bid, x < 2 ^ 31
  disjoint : ∀ cid bid cid' bid', Named a cid bid → Named a cid' bid' → ¬ (cid = cid' ∧ bid = bid') →
    blockPos a cid bid + a.lblkSz ≤ blockPos a cid' bid' ∨
      blockPos a cid' bid' + a.lblkSz ≤ blockPos a cid bid
  apart : ∀ cid bid, Named a cid bid →
    ((1 + a.fsHead.bmpLen.toNat + a.fsHead.tblLen.toNat) * a.lblkSz : ℕ) ≤ blockPos a cid bid

/-- The last block of the last cluster begins below `2^31`. -/
def LastBelow (h : FcfsHead) : Prop :=
  h.cluCnt.toNat ≠ 0 → (h.dtaBeg.toNat + bloksPerCluster * h.cluCnt.toNat - 1) * h.lblkSz < 2 ^ 31

instance (h : FcfsHead) : Decidable (LastBelow h) := by unfold LastBelow; infer_instance

theorem cint_lt (x : ℤ) : cint x < 2 ^ 31 := by
  have := Int.bmod_lt (x := x) (m := 2 ^ 32) (by omega)
  unfold cint
  omega

section Below
variable {a : Args}

theorem mem_terms_le {c bid x : ℕ} (hx : x ∈ terms a c bid) :
    x ≤ blkAddr a c bid ∨ x = bloksPerCluster * a.lblkSz := by
  rw [blkAddr_eq]
  simp only [terms, bloksPerCluster, List.mem_cons, List.not_mem_nil, or_false] at hx
  rcases hx with rfl | rfl | rfl | rfl | rfl | rfl
  · left; omega
  · exact Or.inr rfl
  · left; omega
  · left; omega
  · left; omega
  · left; omega

theorem LastBelow.blkAddr_lt (hlast : LastBelow a.fsHead) {cid : ℤ} {bid : ℕ}
    (hin : InVol a cid bid) : blkAddr a cid bid < 2 ^ 31 := by
  obtain ⟨h0, hc, hb⟩ := hin
  unfold Args.cluCnt at hc
  have hle : blkAddr a cid bid ≤
      (a.fsHead.dtaBeg.toNat + bloksPerCluster * a.fsHead.cluCnt.toNat - 1) * a.fsHead.lblkSz := by
    refine Nat.mul_le_mul_right _ ?_
    unfold bloksPerCluster at *
    omega
  exact hle.trans_lt (hlast (by omega))

/-- The last block whose cluster number is an `int` begins at `2^31` or behind when the last block
of the volume does. -/
theorem exists_far (hL : 1024 ≤ a.lblkSz) (hno : ¬ LastBelow a.fsHead) :
    ∃ cid bid, Named a cid bid ∧ 2 ^ 31 ≤ blkAddr a cid bid := by
  unfold LastBelow at hno
  push Not at hno
  obtain ⟨hne, hge⟩ := hno
  by_cases hbig : a.fsHead.cluCnt.toNat ≤ 2 ^ 31
  · refine ⟨(a.fsHead.cluCnt.toNat - 1 : ℕ), 7, ⟨⟨by omega, ?_, by decide⟩, by omega⟩, ?_⟩
    · unfold Args.cluCnt; omega
    · have hlast : a.fsHead.dtaBeg.toNat + bloksPerCluster * (a.fsHead.cluCnt.toNat - 1) + 7 =
          a.fsHead.dtaBeg.toNat + bloksPerCluster * a.fsHead.cluCnt.toNat - 1 := by
        unfold bloksPerCluster
        omega
      unfold blkAddr
      rw [Int.toNat_natCast, hlast]
      exact hge
  · refine ⟨(2 ^ 31 - 1 : ℕ), 0, ⟨⟨by omega, ?_, by decide⟩, by norm_num⟩, ?_⟩
    · unfold Args.cluCnt; omega
    · rw [blkAddr_eq]
      have hmul : 8 * 1024 * (2 ^ 31 - 1) ≤ 8 * a.lblkSz * (2 ^ 31 - 1) :=
        Nat.mul_le_mul_right _ (Nat.mul_le_mul_left _ hL)
      omega

theorem AddressingExact.lastBelow (h : AddressingExact a) (hL : 1024 ≤ a.lblkSz) :
    LastBelow a.fsHead := by
  by_contra hno
  obtain ⟨cid, bid, hin, hge⟩ := exists_far hL hno
  have hpos := h.exact cid bid hin
  have hlt : blockPos a cid bid < 2 ^ 31 := cint_lt _
  omega

/-- A last block below `2^31` makes all addresses exact, when the data area begins behind the
table. -/
theorem LastBelow.addressingExact (hlast : LastBelow a.fsHead) (h8 : 8 * a.lblkSz < 2 ^ 31)
    (hdta : a.fsHead.cluCnt.toNat ≠ 0 →
      1 + a.fsHead.bmpLen.toNat + a.fsHead.tblLen.toNat ≤ a.fsHead.dtaBeg.toNat) :
    AddressingExact a := by
  have hexact : ∀ cid bid, Named a cid bid → blockPos a cid bid = blkAddr a cid bid :=
    fun cid bid h => blockPos_of_lt h.1.1 h8 (hlast.blkAddr_lt h.1)
  refine ⟨hexact, fun c bid h x hx => ?_, fun cid bid cid' bid' h h' hne => ?_, fun cid bid h => ?_⟩
  · have hlt := hlast.blkAddr_lt h.1
    rcases mem_terms_le hx with hle | rfl
    · omega
    · exact h8
  · have hdis := blkAddr_disjoint h.1 h'.1 hne
    rw [hexact _ _ h, hexact _ _ h']
    omega
  · have hne : a.fsHead.cluCnt.toNat ≠ 0 := by
      obtain ⟨h0, hc, -⟩ := h.1
      unfold Args.cluCnt at hc
      omega
    have hmeta : (1 + a.fsHead.bmpLen.toNat + a.fsHead.tblLen.toNat) * a.lblkSz ≤ metaLen a.fsHead :=
      Nat.mul_le_mul_right _ (hdta hne)
    have hle := metaLen_le_blkAddr a cid bid
    rw [hexact _ _ h]
    omega

end Below

/-- **The addresses of a volume from the formatter are exact when and only when its last block
begins below `2^31`.** -/
theorem addressingExact_iff (a : Args) (secSz secCnt : UInt32) (now : UInt64)
    (label : Fin 255 → UInt8) (hhead : a.fsHead = fmtrHead secSz secCnt now label)
    (h0 : 512 ≤ secSz.toNat) (hs : secSz.toNat ≤ 32767) :
    AddressingExact a ↔ LastBelow a.fsHead := by
  have hL : a.lblkSz = 2 * secSz.toNat := by
    unfold Args.lblkSz
    rw [hhead, lblkSz_fmtrHead secCnt now label (by omega)]
  refine ⟨fun h => h.lastBelow (by omega), fun hlast => hlast.addressingExact (by omega) fun hne => ?_⟩
  have hlt := hlast hne
  have hclu : a.fsHead.cluCnt.toNat < 2 ^ 60 := by
    have hle : a.fsHead.cluCnt.toNat ≤
        (a.fsHead.dtaBeg.toNat + bloksPerCluster * a.fsHead.cluCnt.toNat - 1) * a.fsHead.lblkSz := by
      have hmul := Nat.le_mul_of_pos_right
        (a.fsHead.dtaBeg.toNat + bloksPerCluster * a.fsHead.cluCnt.toNat - 1) (m := a.fsHead.lblkSz)
        (by unfold Args.lblkSz at hL; omega)
      unfold bloksPerCluster at *
      omega
    omega
  rw [hhead] at hne hclu ⊢
  rw [dtaBeg_fmtrHead secCnt now label (fits_of_cluCnt secCnt now label h0 (by omega) hne hclu)]
  omega

/-- On a device of 4 GiB the positions wrap. -/
theorem not_addressingExact_4gib :
    ¬ ∀ (a : Args) (secSz secCnt : UInt32) (now : UInt64) (label : Fin 255 → UInt8),
      a.fsHead = fmtrHead secSz secCnt now label → 512 ≤ secSz.toNat → secSz.toNat ≤ 32767 →
      AddressingExact a := by
  intro h
  have hexact := h (imageArgs (fmtrHead 512 8388608 0 fun _ => 0)) 512 8388608 0 (fun _ => 0) rfl
    (by decide) (by decide)
  have hlast : LastBelow (fmtrHead 512 8388608 0 fun _ => 0) := hexact.lastBelow (by decide)
  revert hlast
  decide

/-- A device of 16 MiB has exact addresses. -/
theorem addressingExact_16mib : AddressingExact (imageArgs (fmtrHead 512 32768 0 fun _ => 0)) :=
  (addressingExact_iff (imageArgs (fmtrHead 512 32768 0 fun _ => 0)) 512 32768 0 (fun _ => 0) rfl
    (by decide) (by decide)).mpr (by decide)

end Fcfs.Fmtr.Address
