import Fcfs.Dev.State

/-! # Blocks and cluster tables

`dev/read.c`, `dev/write.c` and `dev/ctable.c`: one logical block of the data area at a time, block
0 of a cluster being its table, and the two functions that address a block of a file by its number
in the file's block list. -/

namespace Fcfs

open Lib.Bytes

/-- The seek position `dta_beg + clu_sz * cid + lblk_sz * bid`, computed in `int`. -/
def blockPos (a : Args) (cid : ℤ) (bid : ℕ) : ℤ :=
  let lblkSz : ℤ := a.lblkSz
  let dtaBeg := cint (a.fsHead.dtaBeg.toNat * lblkSz)
  let cluSz := cint (bloksPerCluster * lblkSz)
  cint (cint (dtaBeg + cint (cluSz * cid)) + cint (lblkSz * bid))

/-- `dev_read_block`. Every caller dereferences the block, so the null pointer of a failed read is
`none`; so is a negative position, where `fseek` fails and the read goes on from wherever the
stream stands. -/
def devReadBlock (a : Args) (d : Dev) (cid : ℤ) (bid : ℕ) (needCrypt : Bool) : Option Buf :=
  if blockPos a cid bid < 0 then none
  else do
    let block ← d.fread (blockPos a cid bid).toNat a.lblkSz
    some (if needCrypt then a.ciph.decrypt a.lblkSz block else block)

/-- `dev_write_block`. -/
def devWriteBlock (a : Args) (s : St) (cid : ℤ) (bid : ℕ) (data : Buf) (len : ℕ)
    (needCrypt : Bool) : Option (ℤ × St) :=
  if blockPos a cid bid < 0 then none
  else
    let tmp := cut len data
    let tmp := if needCrypt then a.ciph.encrypt a.lblkSz tmp else tmp
    let (res, d) := s.dev.fwrite (blockPos a cid bid).toNat tmp a.lblkSz
    -- the count is compared with `len`, not with the number of bytes asked for
    let lost := if res = a.lblkSz then d.lost else (cid, bid) :: d.lost
    some (if res = len then 0 else -1, { s with dev := { d with log := (cid, bid) :: d.log, lost := lost } })

/-! ### Cluster tables -/

/-- `get_hashsum`. -/
def getHashsum (a : Args) (bl : BlockList) : UInt64 :=
  ((List.finRange 7).foldl (fun sum i => sum + (bl.entrs i).fid) (0 : UInt32)).toUInt64 ^^^
    a.fsHead.ctime

/-- `dev_read_ctable`: a table whose hash does not match reads as all free. -/
def devReadCtable (a : Args) (d : Dev) (id : ℤ) : Option BlockList := do
  let b ← devReadBlock a d id 0 false
  let table := BlockList.ofBytes b
  some (if table.hashsum ≠ getHashsum a table then BlockList.zero else table)

/-- `dev_write_ctable`. -/
def devWriteCtable (a : Args) (s : St) (id : ℤ) (bl : BlockList) : Option (ℤ × St) :=
  devWriteBlock a s id 0 { bl with hashsum := getHashsum a bl }.bytes sizeofBlockList false

/-- `dev_get_blocks`: the numbers of the blocks of a cluster that carry `fid`. -/
def devGetBlocks (bl : BlockList) (fid : ℤ) : List ℕ :=
  ((List.finRange 7).filter fun i => u32 fid == (bl.entrs i).fid).map fun i => i.val + 1

/-- `entrs[bid - 1].num`. -/
def BlockList.num (bl : BlockList) (bid : ℕ) : ℕ :=
  if h : bid - 1 < 7 then (bl.entrs ⟨bid - 1, h⟩).num.toNat else 0

/-! ### Blocks of a file -/

/-- The search loop of `dev_read_by_id` and `dev_write_by_id` over `n` nodes of the list; `none`
when it runs off the end. -/
def seqFind : List BlkInfo → ℕ → ℤ → Option (Option BlkInfo)
  | _, 0, _ => some none
  | [], _ + 1, _ => none
  | b :: l, n + 1, id => if (b.num : ℤ) = id then some (some b) else seqFind l n id

/-- The lookup both functions begin with: the node whose `num` is `id`, or the result `-1`. -/
def seqLookup (list : List BlkInfo) (seqSz : ℤ) (id : ℤ) : Option (Option BlkInfo) :=
  if seqSz ≤ 0 then some none
  else do
    match ← seqFind list seqSz.toNat id with
    | some b => some (if b.cid < 0 then none else some b)
    | none => some none

/-- `dev_read_by_id`: the block's contents, or `none` inside for the result `-1`. -/
def devReadById (a : Args) (d : Dev) (id : ℤ) (list : List BlkInfo) (seqSz : ℤ) :
    Option (Option Buf) := do
  match ← seqLookup list seqSz id with
  | none => some none
  | some b => do
    let buf ← devReadBlock a d b.cid b.bid true
    some (some buf)

/-- `dev_write_by_id`. The result of the block write is dropped. -/
def devWriteById (a : Args) (s : St) (id : ℤ) (buf : Buf) (list : List BlkInfo) (seqSz : ℤ) :
    Option (ℤ × St) := do
  match ← seqLookup list seqSz id with
  | none => some (-1, s)
  | some b => do
    let (_, s) ← devWriteBlock a s b.cid b.bid buf a.lblkSz true
    some (0, s)

end Fcfs
