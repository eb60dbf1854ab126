import Fcfs.Structs

/-! # The formatter's geometry

The header `fmtr/fcfsfmt.c` computes from the sector size and the sector count of the device, in the
widths of its fields. `ceil` and `floor` of quotients of integers below `2^53` are exact. -/

namespace Fcfs

/-- `ceil(x / (double)y)`. -/
def ceilDiv (x y : ℕ) : ℕ := (x + y - 1) / y

/-- The header of `main` for a device of `secCnt` sectors of `secSz` bytes. -/
def fmtrHead (secSz secCnt : UInt32) (now : UInt64) (label : Fin 255 → UInt8) : FcfsHead :=
  let phyBlkSz := secSz.toUInt16
  let phyBlkCnt := secCnt.toUInt64
  let blkCnt := phyBlkCnt / UInt64.ofNat blockSize
  let lblkSz := blockSize * phyBlkSz.toNat
  -- the quotient under `ceil` is an integer already
  let tblLen := UInt16.ofNat (sizeofTable / lblkSz) + 1
  let cluCnt := (blkCnt - tblLen.toUInt64 - 1) / UInt64.ofNat bloksPerCluster
  -- of the two divisions under this `ceil` only the second is one of `double`s
  let bmpLen := UInt32.ofNat (ceilDiv (cluCnt.toNat / 8) lblkSz)
  let cluCnt := (blkCnt - tblLen.toUInt64 - bmpLen.toUInt64 - 1) / UInt64.ofNat bloksPerCluster
  { fsid := 1337
    label := label
    ctime := now
    atime := now
    tblCnt := UInt32.ofNat tableLen
    tblLen := tblLen
    bmpLen := bmpLen
    cluSz := UInt16.ofNat bloksPerCluster
    cluCnt := cluCnt
    blkSz := UInt16.ofNat blockSize
    blkCnt := blkCnt
    phyBlkSz := phyBlkSz
    phyBlkCnt := phyBlkCnt
    dtaBeg := 2 + bmpLen + tblLen.toUInt32
    hashsum := UInt64.ofNat sizeofHead ^^^ now }

end Fcfs
