import Fcfs.Dev.Mount

/-! # Bitmap, free clusters, free blocks

`dev/common.c` as far as it does not use the cluster list of a file. Bit `c` of the bitmap, counted
from the high end of byte `c / 8`, says that cluster `c` has no free block. -/

namespace Fcfs

open Lib.Bytes

/-- The table `mask`. -/
def mask (num : ℕ) : UInt8 := ([128, 64, 32, 16, 8, 4, 2, 1] : List UInt8).getD num 0

/-- The table `mask_off`. -/
def maskOff (num : ℕ) : UInt8 := ([7, 6, 5, 4, 3, 2, 1, 0] : List UInt8).getD num 0

/-- The bit of `cs` the loops of `common.c` look at: `(cs & mask[num]) >> mask_off[num]`. -/
def bitOf (cs : UInt8) (num : ℕ) : UInt8 := (cs &&& mask num) >>> maskOff num

/-- `dev_upd_bitmap`: whether the bitmap changed, and the bitmap. A negative cluster number indexes
`mask` or the bitmap below its start. -/
def devUpdBitmap (bm : ℕ → UInt8) (bl : BlockList) (cid : ℤ) : Option (Bool × (ℕ → UInt8)) :=
  if cid < 0 then none
  else
    let hasFree := (List.finRange 7).any fun i => (bl.entrs i).fid == 0
    let byte := cid.toNat / 8
    let num := cid.toNat % 8
    let beingFull := bitOf (bm byte) num == 1
    if !hasFree && !beingFull then some (true, Function.update bm byte (bm byte ||| mask num))
    else if hasFree && beingFull then
      some (true, Function.update bm byte (bm byte &&& ~~~ mask num))
    else some (false, bm)

/-- `if(dev_upd_bitmap(args, bl, cid)) dev_write_bitmap(args);` -/
def updBitmap (a : Args) (s : St) (bl : BlockList) (cid : ℤ) : Option St := do
  let (changed, bm) ← devUpdBitmap s.fsBitmap bl cid
  let s := { s with fsBitmap := bm }
  some (if changed then (devWriteBitmap a s).2 else s)

/-! ### Searching the bitmap -/

/-- The inner loop of `dev_free_cluster_from`: the first clear bit of the byte from bit `j` on. -/
def scanByte (cs : UInt8) (j : ℕ) : Option ℕ :=
  ((List.range 8).drop j).find? fun k => bitOf cs k == 0

/-- The outer loop of `dev_free_cluster_from`, with `n` bytes to go from byte `i`. A full byte is
skipped without resetting `sc`. -/
def scanFrom (bm : ℕ → UInt8) : ℕ → ℕ → ℕ → ℤ
  | 0, _, _ => -1
  | n + 1, i, sc =>
    if bm i = 255 then scanFrom bm n (i + 1) sc
    else match scanByte (bm i) sc with
      | some j => i * 8 + j
      | none => scanFrom bm n (i + 1) 0

/-- `dev_free_cluster_from`. The bound `clu_cnt` counts clusters, the index bytes. -/
def devFreeClusterFrom (a : Args) (bm : ℕ → UInt8) (cid : ℤ) : ℤ :=
  let sg := cid.tdiv 8
  let sc := cid.tmod 8 + 1
  if sg < 0 then -1 else scanFrom bm (a.cluCnt - sg.toNat) sg.toNat sc.toNat

/-- `dev_free_cluster`. -/
def devFreeCluster (a : Args) (bm : ℕ → UInt8) : ℤ := devFreeClusterFrom a bm 0

/-- The loop of `dev_full_free_cluster`. -/
def fullFreeLoop (a : Args) (d : Dev) (bm : ℕ → UInt8) : ℕ → ℤ → Option ℤ
  | 0, _ => none
  | n + 1, start => do
    let cid := devFreeClusterFrom a bm start
    let bl ← devReadCtable a d cid
    if (devGetBlocks bl 0).length = 7 then some cid else fullFreeLoop a d bm n cid

/-- `dev_full_free_cluster`. Nothing changes while the loop runs and it only sees candidates below
`8 * clu_cnt` and `-1`, so a loop that has not ended after that many rounds goes round for ever. -/
def devFullFreeCluster (a : Args) (d : Dev) (bm : ℕ → UInt8) : Option ℤ :=
  fullFreeLoop a d bm (8 * a.cluCnt + 2) 0

/-- `dev_free_fid`: the scan of entries `i` to `tbl_cnt - 1`, `n` of them to go. -/
def freeFidFrom (t : FcfsTable) : ℕ → ℤ → ℤ
  | 0, _ => -1
  | n + 1, i => if (t.entrs i).lnkCnt = 0 then i else freeFidFrom t n (i + 1)

/-- `dev_free_fid`. -/
def devFreeFid (a : Args) (t : FcfsTable) : ℤ := freeFidFrom t (a.fsHead.tblCnt.toNat - 1) 1

/-- The loop of `dev_free_blocks`: `i` blocks found so far in `acc`, the last of them in cluster
`oldCid`. A round that finds no block leaves everything as it was, so the loop never ends then;
otherwise it takes at most `count` rounds. -/
def freeBlocksLoop (a : Args) (d : Dev) (bm : ℕ → UInt8) (count : ℕ) :
    ℕ → ℤ → List BlkInfo → Option (List BlkInfo)
  | 0, _, acc => if acc.length < count then none else some acc
  | n + 1, oldCid, acc =>
    if acc.length < count then do
      let cid := devFreeClusterFrom a bm oldCid
      let bl ← devReadCtable a d cid
      let blist := (devGetBlocks bl 0).take (count - acc.length)
      let oldCid := if blist = [] then oldCid else cid
      freeBlocksLoop a d bm count n oldCid (acc ++ blist.map fun b => ⟨cid, b, 0⟩)
    else some acc

/-- `dev_free_blocks`: the list and its size. Asked for no block it returns the one cleared node it
began with. -/
def devFreeBlocks (a : Args) (d : Dev) (bm : ℕ → UInt8) (count : ℕ) :
    Option (List BlkInfo × ℕ) := do
  let l ← freeBlocksLoop a d bm count count 0 []
  some (if count = 0 then [⟨0, 0, 0⟩] else l, l.length)

/-- `dev_clust_claim`. -/
def devClustClaim (a : Args) (s : St) (cid : ℤ) : Option (ℤ × St) := do
  let bl ← devReadCtable a s.dev cid
  let bl := { bl with entrs := fun i => ⟨u32 (-1), UInt32.ofNat i⟩ }
  let (res, s) ← devWriteCtable a s cid bl
  let s ← updBitmap a s bl cid
  some (res, s)

end Fcfs
