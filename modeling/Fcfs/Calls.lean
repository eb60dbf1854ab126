import Fcfs.Ops

/-! # The calls of FUSE

`fcfs_ops` of `fcfs.c`: the operations the driver hands to FUSE, with what each gives back. Four of them do
nothing and succeed. `ops_init` and `ops_destroy` begin and end a session. -/

namespace Fcfs

open Lib.Bytes

/-! ### Calls that do nothing -/

/-- `ops_utimens`. -/
def opsUtimens (s : St) (_path : Path) : ℤ × St := (0, s)

/-- `ops_chown`. -/
def opsChown (s : St) (_path : Path) (_u _g : UInt32) : ℤ × St := (0, s)

/-- `ops_truncate`. -/
def opsTruncate (s : St) (_path : Path) (_offset : ℕ) : ℤ × St := (0, s)

/-- `ops_flush`. -/
def opsFlush (s : St) (_path : Path) (_fh : ℤ) : ℤ × St := (0, s)

/-! ### All calls -/

/-- A call, with the time it is made at where that is asked for. -/
inductive Call where
  | getattr (now : UInt64) (path : Path)
  | readdir (path : Path)
  | mkdir (now : UInt64) (path : Path) (mode : UInt32)
  | rmdir (path : Path)
  | opn (path : Path)
  | read (buf : Buf) (size offset : ℕ) (fh : ℤ)
  | write (path : Path) (data : Buf) (size offset : ℕ) (fh : ℤ)
  | create (now : UInt64) (path : Path) (mode : UInt32)
  | unlink (path : Path)
  | utimens (path : Path)
  | chown (path : Path) (u g : UInt32)
  | truncate (path : Path) (offset : ℕ)
  | flush (path : Path) (fh : ℤ)
  | opendir (path : Path)
  | releasedir (fh : ℤ)
  | release (fh : ℤ)

/-- What a call gives back: its result, and what it has filled in. -/
inductive Reply where
  | code (r : ℤ)
  | stat (r : ℤ) (st : Stat)
  | names (r : ℤ) (names : List (List UInt8))
  | handle (r fh : ℤ)
  | bytes (r : ℤ) (buf : Buf)

/-- **The operation on a call**: the reply and the state. A write sets the handle it is given when that is
0, a creation does not. -/
def Call.run (a : Args) (s : St) : Call → Option (Reply × St)
  | getattr now path => (opsGetattr a now s path).map fun r => (.stat r.1 r.2.1, r.2.2)
  | readdir path => (opsReaddir a s path).map fun r => (.names 0 r.1, r.2)
  | mkdir now path mode => (opsMkdir a now s path mode).map fun r => (.code r.1, r.2)
  | rmdir path => (opsRmdir a s path).map fun r => (.code r.1, r.2)
  | opn path => (opsOpen a s path).map fun r => (.handle r.1 r.2.1, r.2.2)
  | read buf size offset fh => (opsRead a s buf size offset fh).map fun r => (.bytes r.1 r.2.1, r.2.2)
  | write path data size offset fh => do
    let (fid, _) ← writeFid a s path fh
    let (r, s) ← opsWrite a s path data size offset fh
    some (.handle r fid, s)
  | create now path mode => (opsCreate a now s path mode).map fun r => (.code r.1, r.2)
  | unlink path => (opsUnlink a s path).map fun r => (.code r.1, r.2)
  | utimens path => some (.code (opsUtimens s path).1, (opsUtimens s path).2)
  | chown path u g => some (.code (opsChown s path u g).1, (opsChown s path u g).2)
  | truncate path offset => some (.code (opsTruncate s path offset).1, (opsTruncate s path offset).2)
  | flush path fh => some (.code (opsFlush s path fh).1, (opsFlush s path fh).2)
  | opendir path => (opsOpendir a s path).map fun r => (.handle r.1 r.2.1, r.2.2)
  | releasedir fh => some (.code (opsReleasedir s fh).1, (opsReleasedir s fh).2)
  | release fh => some (.code (opsRelease s fh).1, (opsRelease s fh).2)

/-- The replies to calls made one after the other. -/
def replies (a : Args) : List Call → St → Option (List Reply × St)
  | [], s => some ([], s)
  | c :: cs, s => do
    let (r, s) ← c.run a s
    let (rs, s) ← replies a cs s
    some (r :: rs, s)

/-! ### Mounting and unmounting -/

/-- `ops_init` in a new process, on a block device with sectors of `secSz` bytes, which `fopen` does not
truncate: the arguments of the other operations, and the state. The static `clrs_cache` is of no file, and
`cache_init` makes empty maps. A failing `dev_mount` ends the program. -/
def opsInit (c : Cipher) (junk : Buf) (uid gid : UInt32) (secSz : ℕ) (d : Dev) : Option (Args × St) := do
  let (head, bitmap, table) ← devMount c junk d secSz
  some (⟨head, c, junk, uid, gid⟩,
    { dev := d, fsBitmap := bitmap, fsTable := table, clrsCache := ⟨-1, fun _ => 0, fun _ => 0, 0, 0⟩
      mapSeq := fun _ => none, mapFid := fun _ => none })

/-- `ops_destroy`: the memory is freed, and nothing is written. -/
def opsDestroy (s : St) : Dev := s.dev

/-- A session of the driver: the memory it finds, who has mounted it, and the calls it gets. -/
structure Session where
  junk : Buf
  uid : UInt32
  gid : UInt32
  calls : List Call

/-- Sessions one after the other, with the replies of each. -/
def sessions (c : Cipher) (secSz : ℕ) : List Session → Dev → Option (List (List Reply) × Dev)
  | [], d => some ([], d)
  | x :: xs, d => do
    let (a, s) ← opsInit c x.junk x.uid x.gid secSz d
    let (rs, s) ← replies a x.calls s
    let (rss, d) ← sessions c secSz xs (opsDestroy s)
    some (rs :: rss, d)

end Fcfs
