import Fcfs.Vol.Capacity

/-! # Cluster tables on disk

A cluster table is stored with the sum of its identifiers, exclusive or the time the volume was
formatted at. What is written under one time reads back under it, and as a free table under every
other (`ctable_codec`): the formatter writes the table of cluster 0 only and leaves it to the hash
to reject the rest. Nothing more is assumed of the volume than that its blocks are where the
arithmetic of the driver finds them (`ExactPos`). -/

namespace Fcfs.Vol

open Lib.Bytes

/-- **No seek position overflows.** -/
def ExactPos (a : Args) : Prop := ∀ cid bid, InVol a cid bid → blockPos a cid bid = blkAddr a cid bid

theorem Mounted.exactPos {a : Args} {d : Dev} (hm : Mounted a d) : ExactPos a := fun _ _ =>
  blockPos_eq hm.geo

/-- The same volume under the header of a format at another time. -/
def withCtime (a : Args) (t : UInt64) : Args := { a with fsHead := { a.fsHead with ctime := t } }

/-! ### One block -/

/-- The buffer `dev_write_block` hands to `fwrite`: the data padded with zeros, perhaps encrypted. -/
def outBuf (a : Args) (data : Buf) (len : ℕ) (crypt : Bool) : Buf :=
  if crypt then a.ciph.encrypt a.lblkSz (cut len data) else cut len data

/-- The device after a block was handed to `fwrite`, which stored as much of it as it could. -/
def blkWritten (a : Args) (d : Dev) (cid : ℤ) (bid : ℕ) (b : Buf) : Dev :=
  { d with
    bytes := memcpy d.bytes (blkAddr a cid bid) b (d.stored (blkAddr a cid bid) a.lblkSz)
    writes := d.writes + 1
    log := (cid, bid) :: d.log
    lost := if d.stored (blkAddr a cid bid) a.lblkSz = a.lblkSz then d.lost else (cid, bid) :: d.lost }

section Block
variable {a : Args} (hex : ExactPos a) {cid : ℤ} {bid : ℕ} (hin : InVol a cid bid)
include hex hin

theorem devWriteBlock_exact (s : St) (data : Buf) (len : ℕ) (crypt : Bool) :
    devWriteBlock a s cid bid data len crypt =
      some (if s.dev.stored (blkAddr a cid bid) a.lblkSz = len then 0 else -1,
        { s with dev := blkWritten a s.dev cid bid (outBuf a data len crypt) }) := by
  unfold devWriteBlock
  rw [hex cid bid hin, if_neg (by omega), Int.toNat_natCast]
  rfl

theorem devReadBlock_exact (d : Dev) (crypt : Bool) : devReadBlock a d cid bid crypt =
    (d.fread (blkAddr a cid bid) a.lblkSz).map fun b =>
      if crypt then a.ciph.decrypt a.lblkSz b else b := by
  unfold devReadBlock
  rw [hex cid bid hin, if_neg (by omega), Int.toNat_natCast]
  cases d.fread (blkAddr a cid bid) a.lblkSz <;> rfl

omit hex in
/-- The other blocks of the volume stay as they are, whatever was stored. -/
theorem blkWritten_bytes (d : Dev) (b : Buf) {c : ℤ} {k : ℕ} (hin' : InVol a c k)
    (hne : ¬ (c = cid ∧ k = bid)) {i : ℕ} (hi : i < a.lblkSz) :
    (blkWritten a d cid bid b).bytes (blkAddr a c k + i) = d.bytes (blkAddr a c k + i) := by
  have hst : d.stored (blkAddr a cid bid) a.lblkSz ≤ a.lblkSz :=
    (min_le_left _ _).trans (min_le_left _ _)
  have hdisj := blkAddr_disjoint hin' hin hne
  refine memcpy_out ?_
  omega

omit hin in
theorem devReadBlock_other (hin : InVol a cid bid) (d : Dev) (b : Buf) {c : ℤ} {k : ℕ}
    (hin' : InVol a c k) (hne : ¬ (c = cid ∧ k = bid)) (crypt : Bool) :
    devReadBlock a (blkWritten a d cid bid b) c k crypt = devReadBlock a d c k crypt := by
  have hread : (blkWritten a d cid bid b).fread (blkAddr a c k) a.lblkSz =
      d.fread (blkAddr a c k) a.lblkSz := by
    have hcut : cut a.lblkSz (shift (blkWritten a d cid bid b).bytes (blkAddr a c k)) =
        cut a.lblkSz (shift d.bytes (blkAddr a c k)) :=
      cut_congr fun i hi => blkWritten_bytes hin d b hin' hne hi
    unfold Dev.fread
    rw [hcut]
    rfl
  rw [devReadBlock_exact hex hin', devReadBlock_exact hex hin', hread]

/-- **A block that was stored whole reads back** padded with zeros. -/
theorem devReadBlock_written (d : Dev) (data : Buf) {len : ℕ} (hlen : len ≤ a.lblkSz) (crypt : Bool)
    (hst : d.stored (blkAddr a cid bid) a.lblkSz = a.lblkSz) :
    devReadBlock a (blkWritten a d cid bid (outBuf a data len crypt)) cid bid crypt =
      some (cut len data) := by
  have hroom : blkAddr a cid bid + a.lblkSz ≤ d.size ∨ a.lblkSz = 0 := by
    unfold Dev.stored at hst
    omega
  have hcut : cut a.lblkSz (cut len data) = cut len data := by
    funext i
    rcases Nat.lt_or_ge i a.lblkSz with hi | hi
    · exact cut_of_lt _ hi
    · rw [cut_of_le _ hi, cut_of_le _ (hlen.trans hi)]
  have hread : (blkWritten a d cid bid (outBuf a data len crypt)).fread (blkAddr a cid bid) a.lblkSz =
      some (cut a.lblkSz (outBuf a data len crypt)) := by
    have hbytes : cut a.lblkSz (shift (blkWritten a d cid bid (outBuf a data len crypt)).bytes
        (blkAddr a cid bid)) = cut a.lblkSz (outBuf a data len crypt) := by
      have hput : (blkWritten a d cid bid (outBuf a data len crypt)).bytes =
          memcpy d.bytes (blkAddr a cid bid) (outBuf a data len crypt) a.lblkSz := by
        unfold blkWritten
        rw [hst]
      refine cut_congr fun i hi => ?_
      rw [shift_apply, hput, memcpy_in (by omega) (by omega), Nat.add_sub_cancel_left]
    have hsize : blkAddr a cid bid + a.lblkSz ≤
        (blkWritten a d cid bid (outBuf a data len crypt)).size := by
      rcases hroom with h | h
      · exact h
      · unfold blkAddr
        rw [h, Nat.mul_zero]
        exact Nat.zero_le _
    unfold Dev.fread
    rw [if_pos hsize, hbytes]
  rw [devReadBlock_exact hex hin, hread]
  unfold outBuf
  cases crypt with
  | false => simp [hcut]
  | true => simp [Cipher.decrypt_encrypt, hcut]

end Block

/-! ### Cluster tables -/

/-- A table with its hash, as `dev_write_ctable` stores it. -/
def hashed (a : Args) (bl : BlockList) : BlockList := { bl with hashsum := getHashsum a bl }

/-- The hashes of a table under two times are equal only if the times are. -/
theorem getHashsum_withCtime (a : Args) (t : UInt64) (bl : BlockList) :
    getHashsum a bl = getHashsum (withCtime a t) bl ↔ t = a.fsHead.ctime := by
  unfold getHashsum withCtime
  rw [UInt64.xor_right_inj]
  exact eq_comm

section Table
variable {a : Args} (hex : ExactPos a) (h64 : sizeofBlockList ≤ a.lblkSz) {id : ℤ} (h0 : 0 ≤ id)
  (hc : id < a.cluCnt)
include hex h0 hc

/-- The device after a cluster table was handed to `fwrite`. -/
theorem devWriteCtable_exact (s : St) (bl : BlockList) : devWriteCtable a s id bl =
    some (if s.dev.stored (blkAddr a id 0) a.lblkSz = sizeofBlockList then 0 else -1,
      { s with dev := blkWritten a s.dev id 0 (outBuf a (hashed a bl).bytes sizeofBlockList false) }) :=
  devWriteBlock_exact hex ⟨h0, hc, by decide⟩ s _ _ _

include h64

/-- **A stored table is honoured under its own time only.** -/
theorem devReadCtable_written (d : Dev) (bl : BlockList)
    (hst : d.stored (blkAddr a id 0) a.lblkSz = a.lblkSz) (t : UInt64) :
    devReadCtable (withCtime a t) (blkWritten a d id 0
      (outBuf a (hashed a bl).bytes sizeofBlockList false)) id =
      some (if t = a.fsHead.ctime then hashed a bl else BlockList.zero) := by
  have hread := devReadBlock_written hex (show InVol a id 0 from ⟨h0, hc, by decide⟩) d
    (hashed a bl).bytes h64 false hst
  have hdec : BlockList.ofBytes (cut sizeofBlockList (hashed a bl).bytes) =
      (hashed a bl) :=
    (BlockList.ofBytes_congr fun i hi => cut_of_lt _ hi).trans (BlockList.ofBytes_bytes _)
  unfold devReadCtable
  refine Option.bind_eq_some_iff.mpr ⟨_, hread, ?_⟩
  simp only [hdec]
  by_cases ht : t = a.fsHead.ctime
  · rw [if_pos ht, if_neg]
    exact not_not.mpr ((getHashsum_withCtime a t bl).mpr ht)
  · rw [if_neg ht, if_pos]
    exact fun heq => ht ((getHashsum_withCtime a t bl).mp heq)

end Table

/-- **Cluster tables survive, and no reformat.** A table is read back as it was written, next to the
others as they were, and under any other format time it is read as free. -/
theorem ctable_codec {a : Args} {s : St} (hex : ExactPos a) (h64 : sizeofBlockList ≤ a.lblkSz)
    (hio : IoOk (volLen a.fsHead) s.dev) {id : ℤ} (h0 : 0 ≤ id) (hc : id < a.cluCnt) (bl : BlockList) :
    ∃ r s', devWriteCtable a s id bl = some (r, s') ∧
      (∃ t, devReadCtable a s'.dev id = some t ∧ t.entrs = bl.entrs) ∧
      (∀ c : ℤ, 0 ≤ c → c < a.cluCnt → c ≠ id → devReadCtable a s'.dev c = devReadCtable a s.dev c) ∧
      ∀ c', c' ≠ a.fsHead.ctime → devReadCtable (withCtime a c') s'.dev id = some BlockList.zero := by
  have hin : InVol a id 0 := ⟨h0, hc, by decide⟩
  have hst : s.dev.stored (blkAddr a id 0) a.lblkSz = a.lblkSz :=
    congrArg Prod.fst (hio.fwrite (fun _ => 0) (blkAddr_add_le hin))
  have hread := devReadCtable_written hex h64 h0 hc s.dev bl hst
  refine ⟨_, _, devWriteCtable_exact hex h0 hc s bl, ⟨hashed a bl, ?_, rfl⟩,
    fun c hc0 hcc hne => ?_, fun c' hne => ?_⟩
  · exact (hread a.fsHead.ctime).trans (congrArg some (if_pos rfl))
  · have hother := devReadBlock_other hex hin s.dev
      (outBuf a (hashed a bl).bytes sizeofBlockList false)
      (k := 0) ⟨hc0, hcc, by decide⟩ (fun h => hne h.1) false
    unfold devReadCtable
    rw [hother]
  · exact (hread c').trans (congrArg some (if_neg hne))

/-- A claimed cluster, whose identifiers sum up to more than 32 bits. -/
theorem ctable_codec_claimed : ∃ r s', devWriteCtable sevenArgs sevenFresh 3 ⟨0, claimed⟩ = some (r, s') ∧
    (∃ t, devReadCtable sevenArgs s'.dev 3 = some t ∧ t.entrs = claimed) ∧
    (∀ c : ℤ, 0 ≤ c → c < sevenArgs.cluCnt → c ≠ 3 →
      devReadCtable sevenArgs s'.dev c = devReadCtable sevenArgs sevenFresh.dev c) ∧
    ∀ c', c' ≠ sevenArgs.fsHead.ctime →
      devReadCtable (withCtime sevenArgs c') s'.dev 3 = some BlockList.zero :=
  ctable_codec mounted_sevenFresh.exactPos (by simp [lblkSz_sevenArgs, sizeofBlockList])
    mounted_sevenFresh.io (show (0 : ℤ) ≤ 3 by simp) (by simp [cluCnt_sevenArgs]) ⟨0, claimed⟩

end Fcfs.Vol
