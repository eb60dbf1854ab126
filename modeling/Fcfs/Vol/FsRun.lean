import Fcfs.Lib.Runs
import Fcfs.Vol.Lookups

/-! # Runs of the driver

A run is a sequence of requests, each answered by its operation (`FsOp.run`). A request is within
bounds if what it allocates is there and what it changes exists (`FsOp.Within`). The other condition
concerns only the creation of files: when an identifier is given out again, the caches hold nothing
of its last file (`FsOp.Forgets`). Under both every operation keeps the volume in order
(`VolOk.fsOp`), and so does a run (`VolOk.run`). -/

namespace Fcfs.Vol

open Lib.Bytes

/-- What the driver is asked for. -/
inductive FsOp where
  | create (now : UInt64) (path : Path) (mode : UInt32)
  | mkdir (now : UInt64) (path : Path) (mode : UInt32)
  | opn (path : Path)
  | write (path : Path) (data : Buf) (size offset : ℕ) (fh : ℤ)
  | read (buf : Buf) (size offset : ℕ) (fh : ℤ)
  | getattr (now : UInt64) (path : Path)
  | unlink (path : Path)
  | rmdir (path : Path)
  | release (fh : ℤ)
  | releasedir (fh : ℤ)

/-- The state after the operation. -/
def FsOp.run (a : Args) (s : St) : FsOp → Option St
  | create now path mode => (opsCreate a now s path mode).map Prod.snd
  | mkdir now path mode => (opsMkdir a now s path mode).map Prod.snd
  | opn path => (opsOpen a s path).map fun r => r.2.2
  | write path data size offset fh => (opsWrite a s path data size offset fh).map Prod.snd
  | read buf size offset fh => (opsRead a s buf size offset fh).map fun r => r.2.2
  | getattr now path => (opsGetattr a now s path).map fun r => r.2.2
  | unlink path => (opsUnlink a s path).map Prod.snd
  | rmdir path => (opsRmdir a s path).map Prod.snd
  | release fh => some (opsRelease s fh).2
  | releasedir fh => some (opsReleasedir s fh).2

/-! ### Within bounds -/

/-- The block that is taken next. -/
def firstFree (a : Args) (s : St) : ℤ × ℕ := (freeBlks a (tab a s.dev)).headD (0, 0)

/-- **A file can be made**: there is an identifier and a block for it, and the directory exists and
has room. -/
structure MakeOk (a : Args) (s : St) (path : Path) : Prop where
  fid : 0 < devFreeFid a s.fsTable
  blk : freeBlks a (tab a s.dev) ≠ []
  dir : ∀ p t, fcfsGetPfid a s path = some (p, t) → (p = 0 ∨ Live s.fsTable p) ∧
    RoomIn a s (devFreeFid a s.fsTable) p (firstFree a s)

/-- **A file can be removed**: the path leads to nothing or to a file that exists, in another
directory that exists. -/
def RemoveOk (a : Args) (s : St) (path : Path) : Prop :=
  ∀ f t p u, fcfsGetFid a s path = some (f, t) → fcfsGetPfid a t path = some (p, u) →
    f = 0 ∨ Live s.fsTable f ∧ (p = 0 ∨ Live s.fsTable p) ∧ p ≠ f

/-- **A file can be written**: it exists, the offsets are numbers of the driver, and there is room. -/
structure WriteOk (a : Args) (s : St) (path : Path) (size offset : ℕ) (fh : ℤ) : Prop where
  int : offset + 4 + size < 2 ^ 31
  file : ∀ f t, writeFid a s path fh = some (f, t) → (f = 0 ∨ Live s.fsTable f) ∧
    Fits a t f (writeNeed a size offset)

/-- The request is within bounds. -/
def FsOp.Within (a : Args) (s : St) : FsOp → Prop
  | create _ path _ => MakeOk a s path
  | mkdir _ path _ => MakeOk a s path
  | write path _ size offset fh => WriteOk a s path size offset fh
  | unlink path => RemoveOk a s path
  | rmdir path => RemoveOk a s path
  | _ => True

/-- **The caches hold nothing of the last file** with the identifier that is given out. -/
def FsOp.Forgets (a : Args) (s : St) : FsOp → Prop
  | create _ _ _ => Forgotten s (devFreeFid a s.fsTable) (firstFree a s)
  | mkdir _ _ _ => Forgotten s (devFreeFid a s.fsTable) (firstFree a s)
  | _ => True

/-- The numbers of the clusters and the identifiers fit the table. -/
structure Numbered (a : Args) : Prop where
  clus : a.cluCnt ≤ 65535
  fids : a.fsHead.tblCnt.toNat ≤ tableLen

/-! ### Free identifiers -/

theorem freeFidFrom_range {t : FcfsTable} : ∀ {n : ℕ} {i : ℤ}, 0 < freeFidFrom t n i →
    i ≤ freeFidFrom t n i ∧ freeFidFrom t n i < i + n ∧ (t.entrs (freeFidFrom t n i)).lnkCnt = 0
  | 0, i, h => absurd h (by unfold freeFidFrom; omega)
  | n + 1, i, h => by
    unfold freeFidFrom at h ⊢
    by_cases hz : (t.entrs i).lnkCnt = 0
    · rw [if_pos hz]
      exact ⟨le_refl i, by omega, hz⟩
    · rw [if_neg hz] at h ⊢
      obtain ⟨hle, hlt, hlnk⟩ := freeFidFrom_range h
      exact ⟨by omega, by omega, hlnk⟩

theorem devFreeFid_free {a : Args} (hn : Numbered a) {t : FcfsTable} (h : 0 < devFreeFid a t) :
    devFreeFid a t < tableLen ∧ ¬ Live t (devFreeFid a t) := by
  obtain ⟨-, hlt, hlnk⟩ := freeFidFrom_range h
  have hfids := hn.fids
  refine ⟨?_, fun hlive => hlive.lnk hlnk⟩
  unfold devFreeFid at h ⊢
  omega

theorem devFreeFid_one {a : Args} {t : FcfsTable} (h : (t.entrs 1).lnkCnt = 0)
    (hn : 2 ≤ a.fsHead.tblCnt.toNat) : devFreeFid a t = 1 := by
  obtain ⟨n, hn'⟩ : ∃ n, a.fsHead.tblCnt.toNat - 1 = n + 1 := ⟨a.fsHead.tblCnt.toNat - 2, by omega⟩
  unfold devFreeFid
  rw [hn', freeFidFrom, if_pos h]

theorem freeBlks_one {a : Args} {T : ℤ → Fin 7 → BlkEnt} (h : (T 1 0).fid = 0) (hn : 2 ≤ a.cluCnt) :
    ∃ rest, freeBlks a T = (1, 1) :: rest := by
  obtain ⟨n, hn'⟩ : ∃ n, a.cluCnt - 1 = n + 1 := ⟨a.cluCnt - 2, by omega⟩
  have hown : ∃ rest, ownBids (T 1) 0 = 1 :: rest := by
    have hfin : List.finRange 7 = 0 :: [1, 2, 3, 4, 5, 6] := by decide
    unfold ownBids
    rw [hfin, List.filter_cons_of_pos (by simpa [u32] using h.symm)]
    exact ⟨_, rfl⟩
  obtain ⟨rest, hrest⟩ := hown
  refine ⟨rest.map (Prod.mk 1) ++ (List.range n).flatMap fun c : ℕ => clusterBids T 0 ((c + 1 : ℕ) + 1), ?_⟩
  unfold freeBlks freeUpTo
  rw [hn', List.range_succ_eq_map, List.flatMap_cons, List.flatMap_map]
  have hone : clusterBids T 0 ((0 : ℕ) + 1) = (1, 1) :: rest.map (Prod.mk 1) := by
    unfold clusterBids
    rw [Nat.cast_zero, zero_add, hrest]
    rfl
  rw [hone]
  rfl

theorem firstFree_cons {a : Args} {s : St} (h : freeBlks a (tab a s.dev) ≠ []) :
    ∃ rest, freeBlks a (tab a s.dev) = firstFree a s :: rest := by
  unfold firstFree
  cases hl : freeBlks a (tab a s.dev) with
  | nil => exact absurd hl h
  | cons q rest => exact ⟨rest, rfl⟩

/-! ### Creating -/

section Create
variable {a : Args} {s s' t u : St} {p r : ℤ} {path : Path}

/-- `dev_create_file` with a name that does not fit has no outcome. -/
theorem devCreateFile_name {now : UInt64} {f : ℤ} {name : List UInt8} {mode : UInt32} (hf : 0 < f)
    (h : devCreateFile a s now p f name mode = some (r, t)) : name.length < 32 := by
  unfold devCreateFile at h
  rw [if_neg (by omega)] at h
  obtain ⟨⟨dirs, u⟩, -, h⟩ := Option.bind_eq_some_iff.mp h
  obtain ⟨⟨r', v⟩, -, h⟩ := Option.bind_eq_some_iff.mp h
  rcases ite_eq_iff.mp h with ⟨-, h⟩ | ⟨hlt, -⟩
  · cases h
  · omega

/-- **Making a file after its directory has been looked up.** -/
theorem VolOk.made (hv : VolOk a s) (hn : Numbered a) (hok : MakeOk a s path)
    (hfirst : s.clrsCache.fid = devFreeFid a s.fsTable →
      clrsAt a s.clrsCache 0 = (firstFree a s).1)
    (hpar : fcfsGetPfid a s path = some (p, t)) (now : UInt64) {name : List UInt8}
    (hname : name.length < 32) (mode : UInt32) :
    ∃ r₁ u r₂ s', devCreateFile a t now p (devFreeFid a s.fsTable) name mode = some (r₁, u) ∧
      devInitFile a u (devFreeFid a s.fsTable) = some (r₂, s') ∧
      Made a (devFreeFid a s.fsTable) p (firstFree a s) (newEntry now (devFreeFid a s.fsTable) name mode)
        t s' := by
  obtain ⟨hft, hdead⟩ := devFreeFid_free hn hok.fid
  obtain ⟨rest, hrest⟩ := firstFree_cons hok.blk
  obtain ⟨hp, hroom⟩ := hok.dir p t hpar
  have hlook := hv.getPfid hpar
  have hfree : freeBlks a (tab a t.dev) = firstFree a s :: rest := by
    rw [hlook.dev]
    exact hrest
  have hpf : p ≠ devFreeFid a s.fsTable := by
    have hpos := hok.fid
    rintro rfl
    exact hp.elim (fun hz => by omega) hdead
  refine (hlook.volOk hv).make hn.clus (by rw [hlook.table]; exact hp) hok.fid hft
    (by rw [hlook.table]; exact hdead) hfree (fun hfid => ?_) ?_ now hname mode
  · rcases hlook.clrs _ hok.fid hft hdead with heq | hne
    · rw [heq] at hfid ⊢
      exact hfirst hfid
    · exact absurd hfid hne
  · exact hroom.of_looked hv hlook hp hok.fid hft hpf (by rw [hrest]; exact List.mem_cons_self)

/-- **`ops_create` makes the file.** -/
theorem VolOk.create (hv : VolOk a s) (hn : Numbered a) (hok : MakeOk a s path)
    (hfirst : s.clrsCache.fid = devFreeFid a s.fsTable →
      clrsAt a s.clrsCache 0 = (firstFree a s).1)
    (hpar : fcfsGetPfid a s path = some (p, t)) {name : List UInt8} (hbase : baseName path = some name)
    (hname : name.length < 32) (now : UInt64) (mode : UInt32) :
    ∃ s', opsCreate a now s path mode = some (0, s') ∧
      Made a (devFreeFid a s.fsTable) p (firstFree a s)
        (newEntry now (devFreeFid a s.fsTable) name (0o100000 ||| mode)) t s' := by
  obtain ⟨r₁, u, r₂, s', hc, hi, hmade⟩ := hv.made hn hok hfirst hpar now hname (0o100000 ||| mode)
  refine ⟨s', ?_, hmade⟩
  refine Option.bind_eq_some_iff.mpr ⟨_, hpar, ?_⟩
  refine Option.bind_eq_some_iff.mpr ⟨_, hbase, ?_⟩
  rw [← (hv.getPfid hpar).table] at hc hi
  refine Option.bind_eq_some_iff.mpr ⟨_, hc, ?_⟩
  exact Option.bind_eq_some_iff.mpr ⟨_, hi, rfl⟩

/-- **`ops_mkdir` makes the directory.** -/
theorem VolOk.mkdir (hv : VolOk a s) (hn : Numbered a) (hok : MakeOk a s path)
    (hfirst : s.clrsCache.fid = devFreeFid a s.fsTable →
      clrsAt a s.clrsCache 0 = (firstFree a s).1)
    (hpar : fcfsGetPfid a s path = some (p, t)) {name : List UInt8} (hbase : baseName path = some name)
    (hname : name.length < 32) (now : UInt64) (mode : UInt32) :
    ∃ s', opsMkdir a now s path mode = some (0, s') ∧
      Made a (devFreeFid a s.fsTable) p (firstFree a s)
        (newEntry now (devFreeFid a s.fsTable) name (0o40000 ||| mode)) t s' := by
  obtain ⟨r₁, u, r₂, s', hc, hi, hmade⟩ := hv.made hn hok hfirst hpar now hname (0o40000 ||| mode)
  refine ⟨s', ?_, hmade⟩
  refine Option.bind_eq_some_iff.mpr ⟨_, hbase, ?_⟩
  refine Option.bind_eq_some_iff.mpr ⟨_, hpar, ?_⟩
  refine Option.bind_eq_some_iff.mpr ⟨_, hc, ?_⟩
  exact Option.bind_eq_some_iff.mpr ⟨_, hi, rfl⟩

theorem opsCreate_name {now : UInt64} {mode : UInt32} (hv : VolOk a s) (hpos : 0 < devFreeFid a s.fsTable)
    (h : opsCreate a now s path mode = some (r, s')) : ∃ p t name, fcfsGetPfid a s path = some (p, t) ∧
      baseName path = some name ∧ name.length < 32 := by
  obtain ⟨⟨p, t⟩, hpar, h⟩ := Option.bind_eq_some_iff.mp h
  obtain ⟨name, hbase, h⟩ := Option.bind_eq_some_iff.mp h
  obtain ⟨⟨r₁, u⟩, hc, -⟩ := Option.bind_eq_some_iff.mp h
  rw [(hv.getPfid hpar).table] at hc
  exact ⟨p, t, name, hpar, hbase, devCreateFile_name hpos hc⟩

theorem opsMkdir_name {now : UInt64} {mode : UInt32} (hpos : 0 < devFreeFid a s.fsTable)
    (h : opsMkdir a now s path mode = some (r, s')) : ∃ p t name, fcfsGetPfid a s path = some (p, t) ∧
      baseName path = some name ∧ name.length < 32 := by
  obtain ⟨name, hbase, h⟩ := Option.bind_eq_some_iff.mp h
  obtain ⟨⟨p, t⟩, hpar, h⟩ := Option.bind_eq_some_iff.mp h
  obtain ⟨⟨r₁, u⟩, hc, -⟩ := Option.bind_eq_some_iff.mp h
  exact ⟨p, t, name, hpar, hbase, devCreateFile_name hpos hc⟩

theorem Forgotten.of_looked {f : ℤ} {q : ℤ × ℕ} (h : Forgotten s f q) (hlook : Looked a s t)
    (hf0 : 0 < f) (hft : f < tableLen) (hdead : ¬ Live s.fsTable f) : Forgotten t f q := by
  refine ⟨fun hfid => ?_, fun l hl => h.seq l ((hlook.seqs f hf0 hft hdead).symm.trans hl)⟩
  rcases hlook.clrs f hf0 hft hdead with heq | hne
  · rw [heq] at hfid ⊢
    exact h.clrs hfid
  · exact absurd hfid hne

theorem MakeOk.first_mem (hok : MakeOk a s path) : firstFree a s ∈ freeBlks a (tab a s.dev) := by
  obtain ⟨rest, hrest⟩ := firstFree_cons hok.blk
  rw [hrest]
  exact List.mem_cons_self

theorem VolOk.made_of (hv : VolOk a s) (hn : Numbered a) (hok : MakeOk a s path)
    (hf : Forgotten s (devFreeFid a s.fsTable) (firstFree a s)) (hpar : fcfsGetPfid a s path = some (p, t))
    {now : UInt64} {name : List UInt8} (hname : name.length < 32) {mode : UInt32} {r₁ r₂ : ℤ}
    (hc : devCreateFile a t now p (devFreeFid a s.fsTable) name mode = some (r₁, u))
    (hi : devInitFile a u (devFreeFid a s.fsTable) = some (r₂, s')) :
    Made a (devFreeFid a s.fsTable) p (firstFree a s) (newEntry now (devFreeFid a s.fsTable) name mode)
      t s' := by
  obtain ⟨r₁', u', r₂', s'', hc', hi', hmade⟩ :=
    hv.made hn hok (hf.first hv.mounted hok.first_mem) hpar now hname mode
  obtain ⟨-, rfl⟩ := Prod.mk.inj (Option.some.inj (hc.symm.trans hc'))
  obtain ⟨-, rfl⟩ := Prod.mk.inj (Option.some.inj (hi.symm.trans hi'))
  exact hmade

/-- With nothing cached the volume is in order when the file is made. -/
theorem MakeOk.volOk (hok : MakeOk a s path) (hn : Numbered a) (hv : VolOk a s)
    (hf : Forgotten s (devFreeFid a s.fsTable) (firstFree a s))
    (hpar : fcfsGetPfid a s path = some (p, t)) {e : DirEntry}
    (h : Made a (devFreeFid a s.fsTable) p (firstFree a s) e t s') : VolOk a s' := by
  obtain ⟨hft, hdead⟩ := devFreeFid_free hn hok.fid
  exact h.volOk hok.fid hft (hf.of_looked (hv.getPfid hpar) hok.fid hft hdead)

end Create

/-! ### Removing -/

section Remove
variable {a : Args} {s s' t u : St} {f p r : ℤ} {path : Path}

theorem opsRmdir_eq (a : Args) (s : St) (path : Path) : opsRmdir a s path = opsUnlink a s path := rfl

/-- **`ops_unlink` removes the file.** -/
theorem VolOk.remove (hv : VolOk a s) (hn : Numbered a) (hfid : fcfsGetFid a s path = some (f, t))
    (hpar : fcfsGetPfid a t path = some (p, u)) (hlive : Live s.fsTable f) (hf0 : f ≠ 0)
    (hp : p = 0 ∨ Live s.fsTable p) (hne : p ≠ f) :
    ∃ s', opsUnlink a s path = some (0, s') ∧ VolOk a s' ∧ Removed a f p u s' := by
  have hlookt := hv.getFid hfid
  have hlooku := hlookt.trans ((hlookt.volOk hv).getPfid hpar)
  rw [← hlooku.table] at hlive hp
  obtain ⟨s', hrm, hvs, hremoved⟩ := (hlooku.volOk hv).rmFile hn.clus hlive hf0 hp hne
  refine ⟨s', ?_, hvs, hremoved⟩
  refine Option.bind_eq_some_iff.mpr ⟨_, hfid, ?_⟩
  refine Option.bind_eq_some_iff.mpr ⟨_, hpar, ?_⟩
  exact Option.bind_eq_some_iff.mpr ⟨_, hrm, rfl⟩

/-- `ops_unlink` keeps the volume in order, also when it finds nothing. -/
theorem VolOk.unlink (hv : VolOk a s) (hn : Numbered a) (hok : RemoveOk a s path)
    (h : opsUnlink a s path = some (r, s')) : VolOk a s' := by
  obtain ⟨⟨f, t⟩, hfid, hrest⟩ := Option.bind_eq_some_iff.mp h
  obtain ⟨⟨p, u⟩, hpar, hrest⟩ := Option.bind_eq_some_iff.mp hrest
  by_cases hf0 : f = 0
  · obtain ⟨⟨r', v⟩, hrm, hrest⟩ := Option.bind_eq_some_iff.mp hrest
    obtain ⟨-, rfl⟩ := Prod.mk.inj (Option.some.inj hrest)
    have hlookt := hv.getFid hfid
    unfold devRmFile at hrm
    rw [if_pos hf0] at hrm
    obtain ⟨-, rfl⟩ := Prod.mk.inj (Option.some.inj hrm)
    exact (hlookt.trans ((hlookt.volOk hv).getPfid hpar)).volOk hv
  · obtain ⟨hlive, hp, hne⟩ := (hok f t p u hfid hpar).resolve_left hf0
    obtain ⟨v, hop, hvv, -⟩ := hv.remove hn hfid hpar hlive hf0 hp hne
    obtain ⟨-, rfl⟩ := Prod.mk.inj (Option.some.inj (h.symm.trans hop))
    exact hvv

end Remove

/-! ### Every operation -/

section Run
variable {a : Args} {s s' : St}

/-- **Every operation keeps the volume in order.** -/
theorem VolOk.fsOp (hv : VolOk a s) (hn : Numbered a) (o : FsOp) (hw : o.Within a s)
    (hf : o.Forgets a s) (h : o.run a s = some s') : VolOk a s' := by
  cases o with
  | create now path mode =>
    obtain ⟨⟨r, t⟩, hop, rfl⟩ := Option.map_eq_some_iff.mp h
    obtain ⟨p, u, name, hpar, hbase, hname⟩ := opsCreate_name hv hw.fid hop
    obtain ⟨v, hop', hmade⟩ :=
      hv.create hn hw (hf.first hv.mounted hw.first_mem) hpar hbase hname now mode
    obtain ⟨-, rfl⟩ := Prod.mk.inj (Option.some.inj (hop.symm.trans hop'))
    exact hw.volOk hn hv hf hpar hmade
  | mkdir now path mode =>
    obtain ⟨⟨r, t⟩, hop, rfl⟩ := Option.map_eq_some_iff.mp h
    obtain ⟨p, u, name, hpar, hbase, hname⟩ := opsMkdir_name hw.fid hop
    obtain ⟨v, hop', hmade⟩ :=
      hv.mkdir hn hw (hf.first hv.mounted hw.first_mem) hpar hbase hname now mode
    obtain ⟨-, rfl⟩ := Prod.mk.inj (Option.some.inj (hop.symm.trans hop'))
    exact hw.volOk hn hv hf hpar hmade
  | opn path =>
    obtain ⟨⟨r, f, t⟩, hop, rfl⟩ := Option.map_eq_some_iff.mp h
    exact (hv.opn hop).volOk hv
  | write path data size offset fh =>
    obtain ⟨⟨r, t⟩, hop, rfl⟩ := Option.map_eq_some_iff.mp h
    obtain ⟨⟨f, u⟩, hfid, -⟩ := Option.bind_eq_some_iff.mp hop
    obtain ⟨hfile, hfits⟩ := hw.file f u hfid
    have hlook := hv.writeFid hfid
    obtain ⟨v, hop', hvv, -⟩ := (hlook.volOk hv).write hn.clus (by rw [hlook.table]; exact hfile) hfid
      data hw.int hfits
    obtain ⟨-, rfl⟩ := Prod.mk.inj (Option.some.inj (hop.symm.trans hop'))
    exact hvv
  | read buf size offset fh =>
    obtain ⟨⟨r, b, t⟩, hop, rfl⟩ := Option.map_eq_some_iff.mp h
    exact (hv.read hop).volOk hv
  | getattr now path =>
    obtain ⟨⟨r, st, t⟩, hop, rfl⟩ := Option.map_eq_some_iff.mp h
    exact (hv.getattr hop).volOk hv
  | unlink path =>
    obtain ⟨⟨r, t⟩, hop, rfl⟩ := Option.map_eq_some_iff.mp h
    exact hv.unlink hn hw hop
  | rmdir path =>
    obtain ⟨⟨r, t⟩, hop, rfl⟩ := Option.map_eq_some_iff.mp h
    exact hv.unlink hn hw ((opsRmdir_eq a s path).symm.trans hop)
  | release fh => exact Option.some.inj h ▸ hv.release fh
  | releasedir fh => exact Option.some.inj h ▸ hv.release fh

/-- A step of a run within bounds whose creations find the caches clear. -/
def CleanStep (a : Args) (s s' : St) : Prop :=
  ∃ o : FsOp, o.Within a s ∧ o.Forgets a s ∧ o.run a s = some s'

/-- **A run keeps the volume in order.** -/
theorem VolOk.run (hv : VolOk a s) (hn : Numbered a) (hrun : Relation.ReflTransGen (CleanStep a) s s') :
    VolOk a s' := by
  refine Lib.Runs.inv_of_run (fun t u hstep hvt => ?_) hrun hv
  obtain ⟨o, hw, hf, hop⟩ := hstep
  exact hvt.fsOp hn o hw hf hop

end Run

end Fcfs.Vol
