import Fcfs.Dev.File
import Fcfs.Utils

/-! # Directories

`dev/dir.c` and the functions of `dev/file.c` that work on a directory. A directory is a file whose
contents are the records of its entries. -/

namespace Fcfs

open Lib.Bytes

/-- The read loop of `dev_read_dir` from block `i`, with `n` blocks to go. A block that is not found
leaves its part of the buffer alone. -/
def readDirLoop (a : Args) (d : Dev) (inf : List BlkInfo) : ℕ → ℕ → Buf → Option Buf
  | 0, _, dirBuf => some dirBuf
  | n + 1, i, dirBuf => do
    match ← devReadById a d i inf inf.length with
    | none => readDirLoop a d inf n (i + 1) dirBuf
    | some b => readDirLoop a d inf n (i + 1) (memcpy dirBuf (i * a.lblkSz) b a.lblkSz)

/-- `dev_read_dir`: the entries, or `none` inside for a null pointer. A size of `2^31` or more makes
`calloc` fail. -/
def devReadDir (a : Args) (s : St) (fid : ℤ) : Option (Option (List DirEntry) × St) := do
  let (inf, s) ← devGetFileSeq a s fid
  let dirBuf : Buf := fun i => if i < a.lblkSz * inf.length then 0 else a.junk i
  let dirBuf ← readDirLoop a s.dev inf inf.length 0 dirBuf
  let fSz := leNat 4 dirBuf
  if fSz = 0 then some (none, s)
  else if 2 ^ 31 ≤ fSz then none
  else
    let dirList := shift dirBuf 4
    some ((List.range (fSz / 64)).map fun i => DirEntry.ofBytes (shift dirList (64 * i)), s)

/-- The bytes of an array of directory entries. -/
def entriesBytes (ent : List DirEntry) : Buf := fun k =>
  match ent[k / 64]? with
  | some e => e.bytes (k % 64)
  | none => 0

/-- The write loop of `dev_write_dir` from block `i`, with `n` blocks to go; `res` is the result of
the last one. -/
def writeDirLoop (a : Args) (dirBuf : Buf) (inf : List BlkInfo) (seqSz : ℤ) :
    ℕ → ℕ → ℤ → St → Option (ℤ × St)
  | 0, _, res, s => some (res, s)
  | n + 1, i, _, s => do
    let (res, s) ← devWriteById a s i (shift dirBuf (i * a.lblkSz)) inf seqSz
    writeDirLoop a dirBuf inf seqSz n (i + 1) res s

/-- `dev_write_dir`. -/
def devWriteDir (a : Args) (s : St) (fid : ℤ) (ent : List DirEntry) : Option (ℤ × St) := do
  let dirBufLen := ent.length * 64
  let dirBlkCnt := toBlkCnt (dirBufLen + 4 : ℕ) a.lblkSz
  let dirBuf : Buf := fun i => if (i : ℤ) < dirBlkCnt * a.lblkSz then 0 else a.junk i
  let dirBuf := memcpy dirBuf 0 (leByte dirBufLen) 4
  let dirBuf := memcpy dirBuf 4 (entriesBytes ent) dirBufLen
  let (inf, s) ← devGetFileSeq a s fid
  let (seqSz, inf, s) ← growTo a s inf dirBlkCnt fid
  -- a failed extension makes the bound `-1`, which is `2^64 - 1` to the loop
  writeDirLoop a dirBuf inf seqSz (toSizeT seqSz) 0 0 s

/-- The search of `dev_rm_from_dir`: the hit overwritten with the last record. -/
def dropEntry (dirs : List DirEntry) (delId : ℤ) : Option (List DirEntry) :=
  match dirs.findIdx? fun e => (e.fid.toNat : ℤ) == delId with
  | none => none
  | some i => (dirs.set i (dirs.getLastD ⟨0, 0, 0, 0, 0, fun _ => 0⟩)).take (dirs.length - 1)

/-- `dev_rm_from_dir`. -/
def devRmFromDir (a : Args) (s : St) (fid delId : ℤ) : Option (ℤ × St) := do
  let (dirs, s) ← devReadDir a s fid
  match dropEntry (dirs.getD []) delId with
  | none => some (-1, s)
  | some tmp => do
    let (_, s) ← devWriteDir a s fid tmp
    some (0, s)

/-- `dev_rm_file`. The link count goes down before anything is checked. -/
def devRmFile (a : Args) (s : St) (fid pfid : ℤ) : Option (ℤ × St) :=
  if fid = 0 then some (-1, s)
  else do
    let (clustCnt, s) ← devTblClrsCnt a s fid
    let e := s.fsTable.entrs fid
    let e := { e with lnkCnt := e.lnkCnt - 1 }
    let s := { s with fsTable := { s.fsTable with entrs := Function.update s.fsTable.entrs fid e } }
    if e.lnkCnt ≠ 0 then some (-1, s)
    else do
      let s ← rmLoop a fid (toSizeT clustCnt) 0 s
      let (_, s) ← devRmFromDir a s pfid fid
      some (0, (devWriteTable a s).2)

/-- `ENOENT`. -/
def enoent : ℤ := 2

/-- The field `name` after `strcpy` into a cleared record. -/
def nameField (name : List UInt8) : Fin 32 → UInt8 := fun i => name.getD i 0

/-- `dev_create_file`, at the time `now`. A name of 32 bytes or more overruns the last record of the
array. -/
def devCreateFile (a : Args) (s : St) (now : UInt64) (pfid fid : ℤ) (name : List UInt8)
    (mode : UInt32) : Option (ℤ × St) :=
  if fid ≤ 0 then some (-enoent, s)
  else do
    let (dirs, s) ← devReadDir a s pfid
    let (_, s) ← devFileAlloc a s fid
    if 32 ≤ name.length then none
    else devWriteDir a s pfid (dirs.getD [] ++ [⟨u16 fid, mode, now, now, now, nameField name⟩])

/-- `dev_init_file`. When the cluster holds no block of the file, the number is read from an empty
array. -/
def devInitFile (a : Args) (s : St) (fid : ℤ) : Option (ℤ × St) := do
  let (cid, s) ← devTblClrsGet a s fid 0
  let bl ← devReadCtable a s.dev cid
  match devGetBlocks bl fid with
  | [] => none
  | b :: _ => devWriteBlock a s cid b (fun _ => 0) sizeofFileHeader true

end Fcfs
