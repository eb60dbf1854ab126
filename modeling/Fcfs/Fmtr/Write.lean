import Fcfs.Dev.Mount
import Fcfs.Fmtr.Head

/-! # What the formatter writes

`main` of `fmtr/fcfsfmt.c` behind the header's fields: header block, bitmap and file table one after
the other from the start of the device, then, at the data area, the table of cluster 0 and its seven
blocks. The table and the seven blocks are each encrypted as one buffer, the bitmap and the cluster
table not at all. `fmtrMain_written` says what stands on the device afterwards. -/

namespace Fcfs

open Lib.Bytes

/-- An `fwrite` that ends the program when it stops short. -/
def putAll (d : Dev) (pos : ℕ) (b : Buf) (len : ℕ) : Option Dev :=
  let (res, d) := d.fwrite pos b len
  if res ≠ len then none else some d

/-- The table with the root directory in it. -/
def fmtrTable (now : UInt64) : FcfsTable where
  hashsum := UInt64.ofNat sizeofTable ^^^ now
  entrs := fun f => if f = 0 then ⟨1, fun _ => 0⟩ else TableEntry.zero

/-- The table of cluster 0. Its seven blocks carry the identifier 0 of the root, which adds nothing
to the hashsum. -/
def fmtrBlockList (now : UInt64) : BlockList where
  hashsum := now
  entrs := fun i => ⟨0, UInt32.ofNat i⟩

/-- `main` from the header on, at the time `now`; `none` when it ends early. The array the table of
cluster 0 is copied into is not cleared. -/
def fmtrMain (c : Cipher) (junk : Buf) (secSz secCnt : UInt32) (now : UInt64)
    (label : Fin 255 → UInt8) (d : Dev) : Option Dev := do
  let fsHead := fmtrHead secSz secCnt now label
  let dtaBlk := fsHead.lblkSz
  let d ← putAll d 0 (c.encrypt dtaBlk (cut sizeofHead fsHead.bytes)) dtaBlk
  let btmSz := cint (fsHead.bmpLen.toNat * dtaBlk : ℕ)
  if btmSz < 0 then none
  else do
    let d ← putAll d dtaBlk (fun _ => 0) btmSz.toNat
    let tblSz := cint (fsHead.tblLen.toNat * dtaBlk : ℕ)
    if tblSz < 0 then none
    else do
      let tbl := c.encrypt tblSz.toNat (fmtrTable now).bytes
      let d ← putAll d (dtaBlk + btmSz.toNat) tbl tblSz.toNat
      -- the product is one of `unsigned`s
      let pos := fsHead.dtaBeg.toNat * dtaBlk % 2 ^ 32
      let firstTable := memcpy junk 0 (fmtrBlockList now).bytes sizeofBlockList
      let d ← putAll d pos firstTable dtaBlk
      let cluSz := dtaBlk * (bloksPerCluster - 1)
      putAll d (pos + dtaBlk) (c.encrypt cluSz fun _ => 0) cluSz

/-! ### The device afterwards -/

/-- **What the formatter leaves on the device**: the five regions it writes, and behind the seven
blocks what stood there before. -/
structure Written (c : Cipher) (junk : Buf) (h : FcfsHead) (now : UInt64) (d d' : Dev) : Prop where
  size : d'.size = d.size
  room : h.dtaBeg.toNat * h.lblkSz + 8 * h.lblkSz ≤ d.size
  head : ∀ i < h.lblkSz, d'.bytes i = c.encrypt h.lblkSz (cut sizeofHead h.bytes) i
  bitmap : ∀ i < h.bmpLen.toNat * h.lblkSz, d'.bytes (h.lblkSz + i) = 0
  table : ∀ i < h.tblLen.toNat * h.lblkSz,
    d'.bytes (h.lblkSz + h.bmpLen.toNat * h.lblkSz + i) =
      c.encrypt (h.tblLen.toNat * h.lblkSz) (fmtrTable now).bytes i
  root : ∀ i < h.lblkSz, d'.bytes (h.dtaBeg.toNat * h.lblkSz + i) =
    memcpy junk 0 (fmtrBlockList now).bytes sizeofBlockList i
  clear : ∀ i < 7 * h.lblkSz, d'.bytes (h.dtaBeg.toNat * h.lblkSz + h.lblkSz + i) =
    c.encrypt (7 * h.lblkSz) (fun _ => 0) i
  rest : ∀ i, h.dtaBeg.toNat * h.lblkSz + 8 * h.lblkSz ≤ i → d'.bytes i = d.bytes i

theorem putAll_eq_some {d d' : Dev} {pos len : ℕ} {b : Buf} (h : putAll d pos b len = some d') :
    d'.size = d.size ∧ (0 < len → pos + len ≤ d.size) ∧ d'.bytes = memcpy d.bytes pos b len := by
  have hres : d.stored pos len = len := by
    by_contra hne
    rw [putAll, Dev.fwrite] at h
    simp [hne] at h
  have hle : len ≤ d.size - pos := by
    unfold Dev.stored at hres
    omega
  rw [putAll, Dev.fwrite, hres] at h
  simp only [ne_eq, not_true_eq_false, if_false, Option.some.injEq] at h
  subst h
  exact ⟨rfl, fun _ => by omega, rfl⟩

section Main
variable {c : Cipher} {junk : Buf} {secSz secCnt : UInt32} {now : UInt64} {label : Fin 255 → UInt8}
variable {h : FcfsHead} (hhead : h = fmtrHead secSz secCnt now label)
variable (hdta : 1 + h.bmpLen.toNat + h.tblLen.toNat ≤ h.dtaBeg.toNat)
variable (hL : 0 < h.lblkSz) (hsmall : h.dtaBeg.toNat * h.lblkSz < 2 ^ 31)
include hhead hdta hL hsmall

/-- **A formatter that completes has written the five regions.** -/
theorem fmtrMain_written {d d' : Dev} (hmain : fmtrMain c junk secSz secCnt now label d = some d') :
    Written c junk h now d d' := by
  have hmeta := Nat.mul_le_mul_right h.lblkSz hdta
  rw [Nat.add_mul, Nat.add_mul, Nat.one_mul] at hmeta
  have hbtm : cint (h.bmpLen.toNat * h.lblkSz : ℕ) = (h.bmpLen.toNat * h.lblkSz : ℕ) :=
    cint_of_lt (by omega) (by omega)
  have htbl : cint (h.tblLen.toNat * h.lblkSz : ℕ) = (h.tblLen.toNat * h.lblkSz : ℕ) :=
    cint_of_lt (by omega) (by omega)
  have hpos : h.dtaBeg.toNat * h.lblkSz % 2 ^ 32 = h.dtaBeg.toNat * h.lblkSz :=
    Nat.mod_eq_of_lt (by omega)
  have hclu : h.lblkSz * (bloksPerCluster - 1) = 7 * h.lblkSz := Nat.mul_comm _ _
  unfold fmtrMain at hmain
  rw [← hhead] at hmain
  dsimp only at hmain
  rw [hbtm, htbl, hpos, hclu, Int.toNat_natCast, Int.toNat_natCast] at hmain
  obtain ⟨d1, h1, hmain⟩ := Option.bind_eq_some_iff.mp hmain
  rw [if_neg (by omega)] at hmain
  obtain ⟨d2, h2, hmain⟩ := Option.bind_eq_some_iff.mp hmain
  rw [if_neg (by omega)] at hmain
  obtain ⟨d3, h3, hmain⟩ := Option.bind_eq_some_iff.mp hmain
  obtain ⟨d4, h4, h5⟩ := Option.bind_eq_some_iff.mp hmain
  obtain ⟨hs1, -, hb1⟩ := putAll_eq_some h1
  obtain ⟨hs2, -, hb2⟩ := putAll_eq_some h2
  obtain ⟨hs3, -, hb3⟩ := putAll_eq_some h3
  obtain ⟨hs4, -, hb4⟩ := putAll_eq_some h4
  obtain ⟨hs5, hr5, hb5⟩ := putAll_eq_some h5
  have hsize : d4.size = d.size := by rw [hs4, hs3, hs2, hs1]
  refine ⟨hs5.trans hsize, by omega, fun i hi => ?_, fun i hi => ?_, fun i hi => ?_,
    fun i hi => ?_, fun i hi => ?_, fun i hi => ?_⟩
  · rw [hb5, memcpy_out (by omega), hb4, memcpy_out (by omega), hb3, memcpy_out (by omega), hb2,
      memcpy_out (by omega), hb1, memcpy_in (by omega) (by omega), Nat.sub_zero]
  · rw [hb5, memcpy_out (by omega), hb4, memcpy_out (by omega), hb3, memcpy_out (by omega), hb2,
      memcpy_in (by omega) (by omega)]
  · rw [hb5, memcpy_out (by omega), hb4, memcpy_out (by omega), hb3,
      memcpy_in (by omega) (by omega), Nat.add_sub_cancel_left]
  · rw [hb5, memcpy_out (by omega), hb4, memcpy_in (by omega) (by omega), Nat.add_sub_cancel_left]
  · rw [hb5, memcpy_in (by omega) (by omega), Nat.add_sub_cancel_left]
  · rw [hb5, memcpy_out (by omega), hb4, memcpy_out (by omega), hb3, memcpy_out (by omega), hb2,
      memcpy_out (by omega), hb1, memcpy_out (by omega)]

end Main

end Fcfs
