import Fcfs.Dev.Common

/-! # The cluster list of a file

`dev/table.c`. The clusters that hold blocks of a file are listed in the thirteen direct slots of
its table entry and, from the fourteenth on, in a counted array that fills the blocks of a cluster
claimed for it, whose number stands in slot 13. One such list at a time is kept in `clrs_cache`. -/

namespace Fcfs

open Lib.Bytes

/-- `s1_len`: `((lblk_sz - 4) / 4.0) * 7`, the fraction dropped. -/
def s1Len (a : Args) : ℕ := 7 * (a.lblkSz - 4) / 4

/-- The bytes of an array of `unsigned`. -/
def wordBytes (w : ℕ → UInt32) : Buf := fun k => leByte (w (k / 4)).toNat (k % 4)

/-- `dev_tbl_claim_sec_addr`: the number of the claimed cluster. -/
def devTblClaimSecAddr (a : Args) (s : St) : Option (ℤ × St) := do
  let cid ← devFullFreeCluster a s.dev s.fsBitmap
  let (_, s) ← devClustClaim a s cid
  some (cid, { s with clrsCache := { s.clrsCache with s1Cl := fun _ => 0, s1Cnt := 0 } })

/-- The loop of `dev_tbl_load_fir` with `n` slots to go. -/
def loadFirLoop (fid : ℤ) (clrs : ℕ → UInt16) : ℕ → ℕ → (ℕ → UInt32) → ℕ × (ℕ → UInt32)
  | 0, count, s0 => (count, s0)
  | n + 1, count, s0 =>
    if fid ≠ 0 ∧ clrs count = 0 then (count, s0)
    else
      let s0 := Function.update s0 count (clrs count).toUInt32
      if fid = 0 then (count + 1, s0) else loadFirLoop fid clrs n (count + 1) s0

/-- `dev_tbl_load_fir`: the number of direct clusters, and the filled array. -/
def devTblLoadFir (s : St) (fid : ℤ) : ℕ × (ℕ → UInt32) :=
  loadFirLoop fid (s.fsTable.entrs fid).clrs 13 0 s.clrsCache.s0Cl

/-- The buffer of `dev_tbl_load_sec`: blocks 1 to 6 of the cluster in an array of seven blocks. -/
def loadSecBuf (a : Args) (d : Dev) (cid : ℤ) : Option Buf :=
  (List.range 6).foldlM (fun buf i => do
    let b ← devReadBlock a d cid (i + 1) false
    some (memcpy buf (i * a.lblkSz) b a.lblkSz)) a.junk

/-- `dev_tbl_load_sec`: the stored count, and the stored array. -/
def devTblLoadSec (a : Args) (d : Dev) (cid : ℤ) : Option (ℕ × (ℕ → UInt32)) := do
  let buf ← loadSecBuf a d cid
  let s1 := cut (7 * a.lblkSz - 4) (shift buf 4)
  some (leNat 4 buf, fun j => get32 s1 (4 * j))

/-- `dev_tbl_save_sec`: the count and the array, in blocks 1 to 6 of the cluster. -/
def devTblSaveSec (a : Args) (s : St) (cid : ℤ) : Option (ℤ × St) := do
  let buf := memcpy a.junk 0 (leByte s.clrsCache.s1Cnt) 4
  let buf := memcpy buf 4 (wordBytes s.clrsCache.s1Cl) (7 * a.lblkSz - 4)
  let s ← (List.range 6).foldlM (fun s i => do
    let (_, s) ← devWriteBlock a s cid (i + 1) (shift buf (i * a.lblkSz)) a.lblkSz false
    some s) s
  some (0, s)

/-- `tbl_clrs_reinit`. -/
def tblClrsReinit (c : ClrsCache) (fid : ℤ) : ClrsCache :=
  { c with fid := fid, s0Cnt := 0, s1Cnt := 0 }

/-- The first stage of `dev_tbl_clrs_cnt`: the direct slots. -/
def clrsStage0 (s : St) (fid : ℤ) (c : ClrsCache) : ClrsCache :=
  if c.s0Cnt = 0 then
    { c with s0Cnt := (devTblLoadFir s fid).1, s0Cl := (devTblLoadFir s fid).2 }
  else c

/-- The second stage of `dev_tbl_clrs_cnt`: the array in cluster `cid`, if there is one. -/
def clrsStage1 (a : Args) (d : Dev) (cid : UInt16) (c : ClrsCache) : Option ClrsCache :=
  if cid ≠ 0 ∧ c.s1Cnt = 0 then do
    let (cnt, s1) ← devTblLoadSec a d cid.toNat
    some { c with s1Cnt := cnt, s1Cl := s1 }
  else some c

/-- `dev_tbl_clrs_cnt`: the number of clusters of the file, loaded into the cache where the cache
does not hold them. Only the first two stages do anything. -/
def devTblClrsCnt (a : Args) (s : St) (fid : ℤ) : Option (ℤ × St) := do
  let c := if s.clrsCache.fid ≠ fid then tblClrsReinit s.clrsCache fid else s.clrsCache
  let c ← clrsStage1 a s.dev ((s.fsTable.entrs fid).clrs 13) (clrsStage0 s fid c)
  some (cint (c.s0Cnt + c.s1Cnt : ℕ), { s with clrsCache := c })

/-- The load in `dev_tbl_clrs_get`, when the cache holds another file. -/
def clrsLoad (a : Args) (s : St) (fid : ℤ) : Option St :=
  if s.clrsCache.fid ≠ fid then (devTblClrsCnt a s fid).map Prod.snd else some s

/-- What `dev_tbl_clrs_get` returns from a loaded cache. -/
def clrsAt (a : Args) (c : ClrsCache) (id : ℕ) : ℤ :=
  if id < 13 then
    if id < c.s0Cnt then cint (c.s0Cl id).toNat else -1
  else if id < s1Len a then
    if c.s1Cnt ≠ 0 then cint (c.s1Cl (id - 13)).toNat else -1
  else -1

/-- `dev_tbl_clrs_get`. -/
def devTblClrsGet (a : Args) (s : St) (fid : ℤ) (id : ℕ) : Option (ℤ × St) := do
  let s ← clrsLoad a s fid
  some (clrsAt a s.clrsCache id, s)

/-- `entrs[fid].clrs[i] = id`. -/
def FcfsTable.setClr (t : FcfsTable) (fid : ℤ) (i : ℕ) (id : ℤ) : FcfsTable :=
  let e := t.entrs fid
  { t with entrs := Function.update t.entrs fid ⟨e.lnkCnt, Function.update e.clrs i (u16 id)⟩ }

/-- The cluster for the second-level array, claimed in `dev_tbl_clrs_add` for its first element. -/
def clrsSecAddr (a : Args) (s : St) (fid : ℤ) : Option St :=
  if s.clrsCache.s1Cnt = 0 then do
    let (cid, s) ← devTblClaimSecAddr a s
    some (devWriteTable a { s with fsTable := s.fsTable.setClr fid 13 cid }).2
  else some s

/-- `dev_tbl_clrs_add`. -/
def devTblClrsAdd (a : Args) (s : St) (fid : ℤ) (id : ℤ) : Option (ℤ × St) := do
  let (count, s) ← devTblClrsCnt a s fid
  if count < 13 then
    let c := s.clrsCache
    let s := { s with
      clrsCache := { c with s0Cl := Function.update c.s0Cl c.s0Cnt (u32 id), s0Cnt := c.s0Cnt + 1 }
      fsTable := s.fsTable.setClr fid c.s0Cnt id }
    some (0, (devWriteTable a s).2)
  else if count < s1Len a then do
    let s ← clrsSecAddr a s fid
    let c := s.clrsCache
    let s := { s with
      clrsCache := { c with s1Cl := Function.update c.s1Cl c.s1Cnt (u32 id), s1Cnt := c.s1Cnt + 1 } }
    let (_, s) ← devTblSaveSec a s ((s.fsTable.entrs fid).clrs 13).toNat
    some (0, s)
  else some (-1, s)

/-- `dev_tbl_clrs_set`. The second-level array is indexed by `id` itself. -/
def devTblClrsSet (a : Args) (s : St) (id : ℕ) (val : ℤ) : ℤ × St :=
  let c := s.clrsCache
  if id < 13 then
    if id < c.s0Cnt then
      (0, { s with clrsCache := { c with s0Cl := Function.update c.s0Cl id (u32 val) } })
    else (-1, s)
  else if id < s1Len a then
    if c.s1Cnt ≠ 0 then
      (0, { s with clrsCache := { c with s1Cl := Function.update c.s1Cl id (u32 val) } })
    else (-1, s)
  else (-1, s)

end Fcfs
