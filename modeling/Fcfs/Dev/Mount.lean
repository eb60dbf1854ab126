import Fcfs.Dev.Block

/-! # The metadata regions

`dev/mount.c` and `dev/unmount.c`: the header block, the bitmap and the file table. The driver
writes a region by seeking to it; `dev_mount` reads the three of them one after the other. -/

namespace Fcfs

open Lib.Bytes

/-! ### Writing -/

/-- `btm_blk_len`, the bytes of the bitmap region. -/
def Args.btmBlkLen (a : Args) : ℕ := a.fsHead.bmpLen.toNat * a.lblkSz

/-- `tbl_blk_len`, the bytes of the table region. -/
def Args.tblBlkLen (a : Args) : ℕ := a.fsHead.tblLen.toNat * a.lblkSz

/-- `dev_write_bitmap`: `clu_cnt / 8.0` bytes of the bitmap, the fraction dropped by the conversion
to `size_t`, and zeros behind them. -/
def devWriteBitmap (a : Args) (s : St) : ℤ × St :=
  let blkBuf := cut (a.cluCnt / 8) s.fsBitmap
  let (_, d) := s.dev.fwrite a.lblkSz blkBuf a.btmBlkLen
  (0, { s with dev := d })

/-- `dev_write_table`. -/
def devWriteTable (a : Args) (s : St) : ℤ × St :=
  let blkBuf := a.ciph.encrypt a.tblBlkLen (cut sizeofTable s.fsTable.bytes)
  let (res, d) := s.dev.fwrite (a.lblkSz + a.btmBlkLen) blkBuf a.tblBlkLen
  (if res ≠ a.tblBlkLen then -1 else 0, { s with dev := d })

/-! ### Reading -/

/-- `read_head`; a wrong hash ends the program. -/
def readHead (c : Cipher) (d : Dev) (lBlkSz : ℕ) : Option FcfsHead := do
  let headBuf ← d.fread 0 lBlkSz
  let head := FcfsHead.ofBytes (c.decrypt lBlkSz headBuf)
  if head.hashsum ≠ UInt64.ofNat sizeofHead ^^^ head.ctime then none else some head

/-- `read_bitmap`, with the stream at `pos`. -/
def readBitmap (junk : Buf) (d : Dev) (pos bytes : ℕ) : Option (ℕ → UInt8) := do
  let bitmap ← d.fread pos bytes
  some fun i => if i < bytes then bitmap i else junk i

/-- `read_table`, with the stream at `pos`; a wrong hash ends the program. -/
def readTable (c : Cipher) (d : Dev) (pos bytes : ℕ) (head : FcfsHead) : Option FcfsTable := do
  let tableBuf ← d.fread pos bytes
  let table := FcfsTable.ofBytes (c.decrypt bytes tableBuf)
  if table.hashsum ≠ UInt64.ofNat sizeofTable ^^^ head.ctime then none else some table

/-- `dev_mount` on a device of sector size `secSz`: header, bitmap and table in the order they
stand on the device. -/
def devMount (c : Cipher) (junk : Buf) (d : Dev) (secSz : ℕ) :
    Option (FcfsHead × (ℕ → UInt8) × FcfsTable) := do
  let lBlkSz := secSz * blockSize
  let head ← readHead c d lBlkSz
  let btmLen := head.lblkSz * head.bmpLen.toNat
  let bitmap ← readBitmap junk d lBlkSz btmLen
  let table ← readTable c d (lBlkSz + btmLen) (head.lblkSz * head.tblLen.toNat) head
  some (head, bitmap, table)

end Fcfs
