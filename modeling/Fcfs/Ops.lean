import Fcfs.Dev.Dir

/-! # The file-system operations

`ops/` and `cache/file_id.c`: what the driver hands to FUSE. A path is resolved one directory at a
time, from its parent, and every component found on the way is put into the stat cache. The
resolution never fails for its callers: `fcfs_get_fid` returns the `st_dev` of a cleared structure,
the root's identifier, when there is no such file. -/

namespace Fcfs

open Lib.Bytes

/-! ### Resolving paths -/

/-- `cache_stat_add`. -/
def cacheStatAdd (s : St) (path : Path) (st : Stat) : St :=
  { s with mapFid := Function.update s.mapFid path (some st) }

/-- The name in a directory entry as `strcmp` sees it. -/
def DirEntry.nameStr (e : DirEntry) : List UInt8 :=
  ((List.finRange 32).map e.name).takeWhile (· ≠ 0)

/-- The prefix `fcfs_get_pfid` looks up: up to the last `/`, or the root. -/
def parentPath (path : Path) : Option Path := do
  let pLen ← getParrentPath path
  some (path.take (if pLen = 0 then 1 else pLen))

/-- What stands behind the last `/`. -/
def baseName (path : Path) : Option (List UInt8) := do
  let pLen ← getParrentPath path
  some (path.drop (pLen + 1))

/-- The root's path. -/
def rootPath : Path := [47]

/-- The size `_ops_getattr` fills in when it is asked for all fields. -/
def statSize (a : Args) (s : St) (st : Stat) (fid : ℤ) (flag : Bool) : Option (Stat × St) :=
  if flag then do
    let (sz, s) ← devFileSize a s fid
    some ({ st with stSize := sz }, s)
  else some (st, s)

/-- `_ops_getattr` on a path of at most `n` bytes: the result, the filled structure, the state. A
parent's path is shorter than the path, so `n` never runs out first. -/
def opsGetattrAux (a : Args) (now : UInt64) : ℕ → Path → Bool → St → Option (ℤ × Stat × St)
  | 0, _, _, _ => none
  | n + 1, path, flag, s =>
    match if flag then none else s.mapFid path with
    | some st => some (0, st, s)
    | none =>
      let st : Stat := if flag then ⟨0, 0, 0, 0, a.uid, a.gid, now, now, 0⟩ else Stat.zero
      if path = rootPath then do
        let (st, s) ← statSize a s { st with stDev := 0, stMode := 0o40777, stNlink := 2 } 0 flag
        some (0, st, s)
      else do
        let np ← parentPath path
        let (_, pst, s) ← opsGetattrAux a now n np false s
        let (dirs, s) ← devReadDir a s pst.stDev
        let name ← baseName path
        match (dirs.getD []).find? fun e => e.nameStr == name with
        | none => some (-enoent, st, s)
        | some e => do
          let fid : ℤ := e.fid.toNat
          let st := { st with
            stAtime := e.atime, stMtime := e.mtime, stCtime := e.ctime
            stNlink := (s.fsTable.entrs fid).lnkCnt.toNat, stMode := e.mode }
          let (st, s) ← statSize a s st fid flag
          let st := { st with stDev := fid }
          some (0, st, cacheStatAdd s path st)

/-- **How a path is resolved**: from the cache, as the root, or from its parent, where its last component
may be missing. -/
inductive Resolution (a : Args) (now : UInt64) (n : ℕ) (path : Path) (flag : Bool) (s : St) :
    ℤ → Stat → St → Prop
  | cached {st : Stat} (hit : (if flag then none else s.mapFid path) = some st) :
      Resolution a now n path flag s 0 st s
  | root {st₀ st : Stat} {t : St} (hmiss : (if flag then none else s.mapFid path) = none)
      (hroot : path = rootPath) (hdev : st₀.stDev = 0) (hsize : statSize a s st₀ 0 flag = some (st, t)) :
      Resolution a now n path flag s 0 st t
  | missing {np : Path} {r : ℤ} {pst st : Stat} {dirs : Option (List DirEntry)} {name : List UInt8} {u t : St}
      (hmiss : (if flag then none else s.mapFid path) = none) (hroot : path ≠ rootPath)
      (hparent : parentPath path = some np) (hpar : opsGetattrAux a now n np false s = some (r, pst, u))
      (hdir : devReadDir a u pst.stDev = some (dirs, t)) (hbase : baseName path = some name)
      (hfind : ((dirs.getD []).find? fun e => e.nameStr == name) = none) (hdev : st.stDev = 0) :
      Resolution a now n path flag s (-enoent) st t
  | found {np : Path} {r : ℤ} {pst st₀ st : Stat} {dirs : Option (List DirEntry)} {name : List UInt8}
      {e : DirEntry} {u v w : St}
      (hmiss : (if flag then none else s.mapFid path) = none) (hroot : path ≠ rootPath)
      (hparent : parentPath path = some np) (hpar : opsGetattrAux a now n np false s = some (r, pst, u))
      (hdir : devReadDir a u pst.stDev = some (dirs, v)) (hbase : baseName path = some name)
      (hfind : ((dirs.getD []).find? fun e => e.nameStr == name) = some e)
      (hsize : statSize a v st₀ e.fid.toNat flag = some (st, w)) :
      Resolution a now n path flag s 0 { st with stDev := e.fid.toNat }
        (cacheStatAdd w path { st with stDev := e.fid.toNat })

theorem opsGetattrAux_cases {a : Args} {now : UInt64} {n : ℕ} {path : Path} {flag : Bool} {s t : St} {r : ℤ}
    {st : Stat} (h : opsGetattrAux a now (n + 1) path flag s = some (r, st, t)) :
    Resolution a now n path flag s r st t := by
  unfold opsGetattrAux at h
  split at h
  case h_1 st' hit =>
    obtain ⟨rfl, hrest⟩ := Prod.mk.inj (Option.some.inj h)
    obtain ⟨rfl, rfl⟩ := Prod.mk.inj hrest
    exact .cached hit
  case h_2 hmiss =>
    dsimp only at h
    rcases ite_eq_iff.mp h with ⟨hroot, h⟩ | ⟨hroot, h⟩
    · obtain ⟨⟨st', u⟩, hsize, h⟩ := Option.bind_eq_some_iff.mp h
      obtain ⟨rfl, hrest⟩ := Prod.mk.inj (Option.some.inj h)
      obtain ⟨rfl, rfl⟩ := Prod.mk.inj hrest
      exact .root hmiss hroot rfl hsize
    · obtain ⟨np, hparent, h⟩ := Option.bind_eq_some_iff.mp h
      obtain ⟨⟨r', pst, u⟩, hpar, h⟩ := Option.bind_eq_some_iff.mp h
      obtain ⟨⟨dirs, v⟩, hdir, h⟩ := Option.bind_eq_some_iff.mp h
      obtain ⟨name, hbase, h⟩ := Option.bind_eq_some_iff.mp h
      dsimp only at h
      split at h
      case h_1 hfind =>
        obtain ⟨rfl, hrest⟩ := Prod.mk.inj (Option.some.inj h)
        obtain ⟨rfl, rfl⟩ := Prod.mk.inj hrest
        exact .missing hmiss hroot hparent hpar hdir hbase hfind (by cases flag <;> rfl)
      case h_2 e hfind =>
        obtain ⟨⟨st', w⟩, hsize, h⟩ := Option.bind_eq_some_iff.mp h
        obtain ⟨rfl, hrest⟩ := Prod.mk.inj (Option.some.inj h)
        obtain ⟨rfl, rfl⟩ := Prod.mk.inj hrest
        exact .found hmiss hroot hparent hpar hdir hbase hfind hsize

/-- `_ops_getattr`. -/
def opsGetattr' (a : Args) (now : UInt64) (s : St) (path : Path) (flag : Bool) :
    Option (ℤ × Stat × St) := opsGetattrAux a now path.length path flag s

/-- `fcfs_get_fid`. -/
def fcfsGetFid (a : Args) (s : St) (path : Path) : Option (ℤ × St) := do
  let (_, st, s) ← opsGetattr' a 0 s path false
  some (st.stDev, s)

/-- `fcfs_get_pfid`. -/
def fcfsGetPfid (a : Args) (s : St) (path : Path) : Option (ℤ × St) := do
  let np ← parentPath path
  fcfsGetFid a s np

/-! ### Names -/

/-- `ops_getattr`. -/
def opsGetattr (a : Args) (now : UInt64) (s : St) (path : Path) : Option (ℤ × Stat × St) :=
  opsGetattr' a now s path true

/-- `ops_readdir`: the names handed to the filler. -/
def opsReaddir (a : Args) (s : St) (path : Path) : Option (List (List UInt8) × St) := do
  let (fid, s) ← fcfsGetFid a s path
  let (dirs, s) ← devReadDir a s fid
  let names := ((dirs.getD []).map DirEntry.nameStr).filter (· ≠ [])
  some ([46] :: [46, 46] :: names, s)

/-- `ops_create`. The results of creating and initialising are dropped. -/
def opsCreate (a : Args) (now : UInt64) (s : St) (path : Path) (mode : UInt32) :
    Option (ℤ × St) := do
  let (pfid, s) ← fcfsGetPfid a s path
  let fid := devFreeFid a s.fsTable
  let name ← baseName path
  let (_, s) ← devCreateFile a s now pfid fid name (0o100000 ||| mode)
  let (_, s) ← devInitFile a s fid
  some (0, s)

/-- `ops_mkdir`. -/
def opsMkdir (a : Args) (now : UInt64) (s : St) (path : Path) (mode : UInt32) :
    Option (ℤ × St) := do
  let name ← baseName path
  let fid := devFreeFid a s.fsTable
  let (pfid, s) ← fcfsGetPfid a s path
  let (_, s) ← devCreateFile a s now pfid fid name (0o40000 ||| mode)
  let (_, s) ← devInitFile a s fid
  some (0, s)

/-- `ops_unlink`. -/
def opsUnlink (a : Args) (s : St) (path : Path) : Option (ℤ × St) := do
  let (fid, s) ← fcfsGetFid a s path
  let (pfid, s) ← fcfsGetPfid a s path
  let (_, s) ← devRmFile a s fid pfid
  some (0, s)

/-- `ops_rmdir`. -/
def opsRmdir (a : Args) (s : St) (path : Path) : Option (ℤ × St) := do
  let (fid, s) ← fcfsGetFid a s path
  let (pfid, s) ← fcfsGetPfid a s path
  let (_, s) ← devRmFile a s fid pfid
  some (0, s)

/-! ### Handles -/

/-- `ops_open`: the result, the handle `fi->fh`, the state. -/
def opsOpen (a : Args) (s : St) (path : Path) : Option (ℤ × ℤ × St) := do
  let (fid, s) ← fcfsGetFid a s path
  some (0, fid, s)

/-- `ops_opendir`. -/
def opsOpendir (a : Args) (s : St) (path : Path) : Option (ℤ × ℤ × St) := do
  let (fid, s) ← fcfsGetFid a s path
  some (0, fid, s)

/-- `ops_release`. -/
def opsRelease (s : St) (fh : ℤ) : ℤ × St := (0, cacheSeqRm s fh)

/-- `ops_releasedir`. -/
def opsReleasedir (s : St) (fh : ℤ) : ℤ × St := (0, cacheSeqRm s fh)

/-! ### Contents -/

/-- The read loops of `ops_read` and `ops_write`: blocks `blkNum + i`, `blkNum + i + 1`, … into the
buffer, `n` of them; `none` inside for the result `-1`. -/
def readLoop (a : Args) (d : Dev) (inf : List BlkInfo) (seqSz blkNum : ℤ) :
    ℕ → ℕ → Buf → Option (Option Buf)
  | 0, _, tmp => some (some tmp)
  | n + 1, i, tmp => do
    match ← devReadById a d (blkNum + i) inf seqSz with
    | none => some none
    | some b => readLoop a d inf seqSz blkNum n (i + 1) (memcpy tmp (i * a.lblkSz) b a.lblkSz)

/-- The write loop of `ops_write`; the flag says that every block was found. -/
def writeLoop (a : Args) (tmp : Buf) (inf : List BlkInfo) (seqSz blkNum : ℤ) :
    ℕ → ℕ → St → Option (Bool × St)
  | 0, _, s => some (true, s)
  | n + 1, i, s => do
    let (res, s) ← devWriteById a s (blkNum + i) (shift tmp (i * a.lblkSz)) inf seqSz
    if res < 0 then some (false, s) else writeLoop a tmp inf seqSz blkNum n (i + 1) s

/-- `ops_read` of `size` bytes at `offset`: the result, what `buf` holds after it, the state. The
sizes are `size_t`, the comparison with the file's size is made there. A negative length of the
array `tmp`, or a copy past its end, has no defined outcome. -/
def opsRead (a : Args) (s : St) (buf : Buf) (size offset : ℕ) (fh : ℤ) :
    Option (ℤ × Buf × St) := do
  let (fsize, s) ← devFileSize a s fh
  let total := (offset + size) % 2 ^ 64
  let short := toSizeT fsize < total
  let size := if short then (size + (toSizeT fsize + (2 ^ 64 - total))) % 2 ^ 64 else size
  if short ∧ size = 0 then some (0, buf, s)
  else do
    let offset := offset + 4
    let blkNum : ℤ := offset / a.lblkSz
    let blkOff := offset % a.lblkSz
    let szCnt := toBlkCnt (cint (blkOff + size : ℕ)) a.lblkSz
    if szCnt < 0 then none
    else do
      let (inf, s) ← devGetFileSeq a s fh
      match ← readLoop a s.dev inf inf.length blkNum szCnt.toNat 0 a.junk with
      | none => some (-1, buf, s)
      | some tmp =>
        if a.lblkSz * szCnt < (blkOff + size : ℕ) then none
        else some (cint size, memcpy buf 0 (shift tmp blkOff) size, s)

/-- The file `ops_write` works on: the handle, or what the path resolves to when the handle is 0. -/
def writeFid (a : Args) (s : St) (path : Path) (fh : ℤ) : Option (ℤ × St) :=
  if fh = 0 then do
    let (_, fh, s) ← opsOpen a s path
    some (fh, s)
  else some (fh, s)

/-- `ops_write` of `size` bytes at `offset` through the handle `fh`: the result and the state. -/
def opsWrite (a : Args) (s : St) (path : Path) (data : Buf) (size offset : ℕ) (fh : ℤ) :
    Option (ℤ × St) := do
  let (fid, s) ← writeFid a s path fh
  let offset := offset + 4
  let blkNum : ℤ := offset / a.lblkSz
  let blkOff := offset % a.lblkSz
  let szCnt := toBlkCnt (cint (blkOff + size : ℕ)) a.lblkSz
  let (inf, s) ← devGetFileSeq a s fid
  let (seqSz, inf, s) ← growTo a s inf (blkNum + szCnt) fid
  if seqSz < 0 then some (-1, s)
  else if szCnt < 0 then none
  else do
    match ← readLoop a s.dev inf seqSz blkNum szCnt.toNat 0 a.junk with
    | none => some (-1, s)
    | some tmp => do
      let tmp := memcpy tmp blkOff data size
      let (ok, s) ← writeLoop a tmp inf seqSz blkNum szCnt.toNat 0 s
      if ok then do
        let (sz, s) ← devFileSize a s fid
        let sz := if toSizeT sz < offset - 4 + size then cint (offset - 4 + size : ℕ) else sz
        let (_, s) ← devSetFileSize a s fid sz
        some (cint size, s)
      else some (-1, s)

end Fcfs
