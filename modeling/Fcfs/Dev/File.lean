import Fcfs.Dev.Table

/-! # Files

`dev/file.c`, the rest of `dev/common.c`, and `cache/file_seq.c`: the block list of a file, rebuilt
from its cluster list or found in the cache, and what allocates, extends, sizes and frees. The list
a caller holds is the one in the cache, so growing it in place grows the cached list. -/

namespace Fcfs

open Lib.Bytes

/-! ### The block-list cache -/

/-- `cache_seq_add`. -/
def cacheSeqAdd (s : St) (id : ℤ) (l : List BlkInfo) : St :=
  { s with mapSeq := Function.update s.mapSeq id (some l) }

/-- `cache_seq_rm`. -/
def cacheSeqRm (s : St) (id : ℤ) : St := { s with mapSeq := Function.update s.mapSeq id none }

/-! ### The block list -/

/-- The blocks of a cluster that carry `fid`, as `dev_get_file_seq` lists them. -/
def clusterBlks (bl : BlockList) (fid cid : ℤ) : List BlkInfo :=
  (devGetBlocks bl fid).map fun b => ⟨cid, b, bl.num b⟩

/-- The loop of `dev_get_file_seq` over the cluster list from index `i`, with `n` rounds to go. -/
def seqCollect (a : Args) (fid : ℤ) : ℕ → ℕ → List BlkInfo → St → Option (List BlkInfo × St)
  | 0, _, acc, s => some (acc, s)
  | n + 1, i, acc, s => do
    let (cid, s) ← devTblClrsGet a s fid i
    if fid ≠ 0 ∧ cid = 0 then some (acc, s)
    else do
      let bl ← devReadCtable a s.dev cid
      let acc := acc ++ clusterBlks bl fid cid
      if fid = 0 then some (acc, s) else seqCollect a fid n (i + 1) acc s

/-- One pass of the sort, `n` comparisons to go: `cur` stays at the head of the list, so each of
them compares the first two nodes. -/
def sortPass : ℕ → Bool → List BlkInfo → Bool × List BlkInfo
  | n + 1, flag, x :: y :: l =>
    if x.num > y.num then sortPass n true (y :: x :: l) else sortPass n flag (x :: y :: l)
  | _, flag, l => (flag, l)

/-- The passes of the sort until one changes nothing; `none` if `n` of them do not get there. -/
def seqSort : ℕ → List BlkInfo → Option (List BlkInfo)
  | 0, _ => none
  | n + 1, l =>
    let (flag, l) := sortPass (l.length - 1) false l
    if flag then seqSort n l else some l

/-- `dev_get_file_seq`; the size is the length of the list. A rebuilt list without any block is
freed before it is linked and cached. -/
def devGetFileSeq (a : Args) (s : St) (fid : ℤ) : Option (List BlkInfo × St) :=
  match s.mapSeq fid with
  | some t => some (t, s)
  | none => do
    let (clustCnt, s) ← devTblClrsCnt a s fid
    let (l, s) ← seqCollect a fid (toSizeT clustCnt) 0 [] s
    if l = [] then none
    else do
      let l ← seqSort (l.length + 2) l
      some (l, cacheSeqAdd s fid l)

/-- `dev_file_size`. -/
def devFileSize (a : Args) (s : St) (fid : ℤ) : Option (ℤ × St) := do
  let (inf, s) ← devGetFileSeq a s fid
  match ← devReadById a s.dev 0 inf inf.length with
  | none => some (-1, s)
  | some buf => some (cint (leNat 4 buf), s)

/-- `dev_set_file_size`. -/
def devSetFileSize (a : Args) (s : St) (fid : ℤ) (size : ℤ) : Option (ℤ × St) := do
  let (inf, s) ← devGetFileSeq a s fid
  match ← devReadById a s.dev 0 inf inf.length with
  | none => some (-1, s)
  | some buf =>
    devWriteById a s 0 (memcpy buf 0 (leByte (u32 size).toNat) 4) inf inf.length

/-! ### Allocating -/

/-- `dev_file_alloc`. -/
def devFileAlloc (a : Args) (s : St) (fid : ℤ) : Option (ℤ × St) := do
  let setEntry (s : St) (e : TableEntry) : St :=
    { s with fsTable := { s.fsTable with entrs := Function.update s.fsTable.entrs fid e } }
  let s := setEntry s TableEntry.zero
  let cid := devFreeCluster a s.fsBitmap
  if cid ≤ 0 then some (-1, s)
  else do
    let s := setEntry s ⟨1, Function.update (fun _ => 0) 0 (u16 cid)⟩
    let bl ← devReadCtable a s.dev cid
    match devGetBlocks bl 0 with
    | [] => some (-1, s)
    | b :: _ => do
      let bl := bl.set b (u32 fid) 0
      let (_, s) ← devWriteCtable a s cid bl
      let s ← updBitmap a s bl cid
      some (0, (devWriteTable a s).2)

/-- The loop of `dev_file_reserve` over the first `n` nodes of the list; the nodes passed get
their numbers. A block number outside 1 to 7 indexes the cluster table out of its bounds. -/
def reserveLoop (a : Args) (fid : ℤ) :
    List BlkInfo → ℕ → ℤ → St → Option (List BlkInfo × St)
  | inf, 0, _, s => some (inf, s)
  | [], _ + 1, _, _ => none
  | b :: inf, n + 1, lastNum, s => do
    let lastNum := lastNum + 1
    let bl ← devReadCtable a s.dev b.cid
    if b.bid = 0 ∨ 7 < b.bid then none
    else do
      let bl := bl.set b.bid (u32 fid) (u32 lastNum)
      let (_, s) ← devWriteCtable a s b.cid bl
      let s ← updBitmap a s bl b.cid
      let (inf, s) ← reserveLoop a fid inf n lastNum s
      some ({ b with num := (u32 lastNum).toNat } :: inf, s)

/-- The inner loop of `dev_file_mem_clrs`: whether `cid` is among the entries `j`, `j + 1`, … of
the cluster list, `n` of them. -/
def memClr (a : Args) (fid cid : ℤ) : ℕ → ℕ → St → Option (Bool × St)
  | 0, _, s => some (false, s)
  | n + 1, j, s => do
    let (t, s) ← devTblClrsGet a s fid j
    if t = cid then some (true, s) else memClr a fid cid n (j + 1) s

/-- `dev_file_mem_clrs`, over the first `n` nodes of the list. -/
def devFileMemClrs (a : Args) (fid : ℤ) : List BlkInfo → ℕ → ℤ → St → Option St
  | _, 0, _, s => some s
  | [], _ + 1, _, _ => none
  | b :: inf, n + 1, clustCnt, s => do
    let (f, s) ← memClr a fid b.cid (toSizeT clustCnt) 0 s
    if f then devFileMemClrs a fid inf n clustCnt s
    else do
      let (_, s) ← devTblClrsAdd a s fid b.cid
      devFileMemClrs a fid inf n (clustCnt + 1) s

/-- `dev_file_reserve`: the result, the renumbered list and the state. -/
def devFileReserve (a : Args) (s : St) (fid : ℤ) (inf : List BlkInfo) (seqSz : ℕ) (lastNum : ℤ) :
    Option (ℤ × List BlkInfo × St) :=
  if fid = 0 then some (-1, inf, s)
  else do
    let (clustCnt, s) ← devTblClrsCnt a s fid
    if clustCnt < 0 then some (-1, inf, s)
    else do
      let (inf, s) ← reserveLoop a fid inf seqSz lastNum s
      let s ← devFileMemClrs a fid inf seqSz clustCnt s
      some (0, inf, (devWriteTable a s).2)

/-- `dev_extd_blk_list`: the new size or `-1`, the list as it is then, and the state. `inf` is the
list in the cache under `fid`; the new nodes are linked behind its last one. -/
def devExtdBlkList (a : Args) (s : St) (inf : List BlkInfo) (seqSz : ℤ) (count : ℕ) (fid : ℤ) :
    Option (ℤ × List BlkInfo × St) := do
  let (blks, newSeqSz) ← devFreeBlocks a s.dev s.fsBitmap count
  let (res, blks, s) ← devFileReserve a s fid blks newSeqSz (seqSz - 1)
  if res < 0 then some (-1, inf, s)
  else some (seqSz + newSeqSz, inf ++ blks, cacheSeqAdd s fid (inf ++ blks))

/-- The growth in `dev_write_dir` and `ops_write`: the list brought to `need` blocks, if it is
shorter; the size, the list and the state. -/
def growTo (a : Args) (s : St) (inf : List BlkInfo) (need : ℤ) (fid : ℤ) :
    Option (ℤ × List BlkInfo × St) :=
  if inf.length < need then devExtdBlkList a s inf inf.length (need - inf.length).toNat fid
  else some ((inf.length : ℤ), inf, s)

/-! ### Freeing -/

/-- The loop of `dev_del_block` over the cluster list from index `i`: 0 where it finds `cid`. -/
def delClrLoop (a : Args) (fid cid : ℤ) : ℕ → ℕ → St → Option St
  | 0, _, s => some s
  | n + 1, i, s => do
    let (t, s) ← devTblClrsGet a s fid i
    delClrLoop a fid cid n (i + 1) (if t = cid then (devTblClrsSet a s i 0).2 else s)

/-- `dev_del_block`. -/
def devDelBlock (a : Args) (s : St) (fid cid : ℤ) (bid : ℕ) : Option (ℤ × St) := do
  let (clustCnt, s) ← devTblClrsCnt a s fid
  let bl ← devReadCtable a s.dev cid
  let bLen := (devGetBlocks bl fid).length
  if bid = 0 ∨ 7 < bid then none
  else do
    let bl := bl.set bid 0 0
    let s ← updBitmap a s bl cid
    let (res, s) ← devWriteCtable a s cid bl
    if bLen = 1 then do
      let s ← delClrLoop a fid cid (toSizeT clustCnt) 0 s
      some (res, (devWriteTable a s).2)
    else some (res, s)

/-- The block-freeing loop of `dev_rm_file` over the cluster list from index `i`. -/
def rmLoop (a : Args) (fid : ℤ) : ℕ → ℕ → St → Option St
  | 0, _, s => some s
  | n + 1, i, s => do
    let (cid, s) ← devTblClrsGet a s fid i
    if cid = 0 then some s
    else do
      let bl ← devReadCtable a s.dev cid
      let blist := devGetBlocks bl fid
      if blist = [] then rmLoop a fid n (i + 1) s
      else do
        let bl := blist.foldl (fun bl b => bl.set b 0 0) bl
        let (_, s) ← devWriteCtable a s cid bl
        let s ← updBitmap a s bl cid
        rmLoop a fid n (i + 1) s

end Fcfs
