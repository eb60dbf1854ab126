import Fcfs.Vol.FsRun

/-! # The files of a volume

What the driver is for: numbered files with bytes, and paths that lead to them. `Files` has no
blocks, no clusters and no caches. On a volume in order, requests to create, write and read files
do to the files what is said here (`VolOk.filesCreate`, `VolOk.filesWrite`, `VolOk.filesRead`): so
what the driver answers does not depend on anything else. -/

namespace Fcfs.Vol

open Lib.Bytes

/-- **Files**: how many names a file has, what it holds, and the paths that are known. -/
structure Files where
  lnk : ℤ → UInt8
  bytes : ℤ → List UInt8
  ids : Path → Option Stat

/-- The file exists, or is the root. -/
def Files.Has (F : Files) (f : ℤ) : Prop := f = 0 ∨ 0 ≤ f ∧ f < tableLen ∧ F.lnk f ≠ 0

instance (F : Files) (f : ℤ) : Decidable (F.Has f) := by unfold Files.Has; infer_instance

/-- **The files of a volume.** -/
def filesOf (a : Args) (s : St) : Files where
  lnk f := (s.fsTable.entrs f).lnkCnt
  bytes f := if f = 0 ∨ 0 ≤ f ∧ f < tableLen ∧ (s.fsTable.entrs f).lnkCnt ≠ 0 then fileBytes a s.dev f
    else []
  ids := s.mapFid

/-- The entries of a directory. -/
def Files.dir (F : Files) (g : ℤ) : List DirEntry := entriesIn (F.bytes g)

/-! ### Paths -/

/-- **What a path leads to**, from its parent on; nothing when a parent does not exist. Every path
that is found becomes known. -/
def Files.look : ℕ → Path → Files → Option (ℤ × Stat × Files)
  | 0, _, _ => none
  | n + 1, path, F =>
    match F.ids path with
    | some st => some (0, st, F)
    | none =>
      if path = rootPath then some (0, { Stat.zero with stDev := 0, stMode := 0o40777, stNlink := 2 }, F)
      else do
        let np ← parentPath path
        let (_, pst, F) ← look n np F
        if F.Has pst.stDev then do
          let name ← baseName path
          match (F.dir pst.stDev).find? fun e => e.nameStr == name with
          | none => some (-enoent, Stat.zero, F)
          | some e =>
            let st := { Stat.zero with
              stAtime := e.atime, stMtime := e.mtime, stCtime := e.ctime
              stNlink := (F.lnk e.fid.toNat).toNat, stMode := e.mode, stDev := e.fid.toNat }
            some (0, st, { F with ids := Function.update F.ids path (some st) })
        else none

/-- The file a path leads to, the root when it leads to none. -/
def Files.find (F : Files) (path : Path) : Option (ℤ × Files) := do
  let (_, st, F) ← F.look path.length path
  some (st.stDev, F)

/-- The directory of a path. -/
def Files.parent (F : Files) (path : Path) : Option (ℤ × Files) := do
  let np ← parentPath path
  F.find np

/-! ### Requests -/

/-- The first of `n` identifiers from `i` on that no file has. -/
def Files.freeFrom (F : Files) : ℕ → ℤ → ℤ
  | 0, _ => -1
  | n + 1, i => if F.lnk i = 0 then i else freeFrom F n (i + 1)

/-- The identifier of the next file. -/
def Files.next (a : Args) (F : Files) : ℤ := F.freeFrom (a.fsHead.tblCnt.toNat - 1) 1

/-- **An empty file is made** and entered in its directory. -/
def Files.create (a : Args) (F : Files) (now : UInt64) (path : Path) (mode : UInt32) : Option Files := do
  let (p, F) ← F.parent path
  let name ← baseName path
  let f := F.next a
  let ent := F.dir p ++ [newEntry now f name (0o100000 ||| mode)]
  some { F with
    lnk := Function.update F.lnk f 1
    bytes := Function.update (Function.update F.bytes p (dirBytes ent)) f [] }

/-- The file a write goes to. -/
def Files.target (F : Files) (path : Path) (fh : ℤ) : Option (ℤ × Files) :=
  if fh = 0 then F.find path else some (fh, F)

/-- **Bytes are overwritten** or appended; nothing when they would begin behind the end. -/
def Files.write (F : Files) (path : Path) (data : Buf) (size offset : ℕ) (fh : ℤ) : Option Files := do
  let (f, F) ← F.target path fh
  if F.Has f ∧ offset ≤ (F.bytes f).length then
    some { F with bytes := Function.update F.bytes f (overwrite (F.bytes f) data size offset) }
  else none

/-- **Bytes are read**; nothing when they are not all there. -/
def Files.read (F : Files) (buf : Buf) (size offset : ℕ) (fh : ℤ) : Option Buf :=
  if F.Has fh ∧ offset + size ≤ (F.bytes fh).length then
    some (memcpy buf 0 (fun i => (F.bytes fh).getD (offset + i) 0) size)
  else none

/-! ### What lookups leave -/

section Lookups
variable {a : Args} {s t : St} {f : ℤ}

theorem has_filesOf : (filesOf a s).Has f ↔ f = 0 ∨ Live s.fsTable f :=
  or_congr Iff.rfl ⟨fun ⟨h0, hlt, hlnk⟩ => ⟨h0, hlt, hlnk⟩, fun h => ⟨h.nonneg, h.lt, h.lnk⟩⟩

theorem bytes_filesOf (hf : f = 0 ∨ Live s.fsTable f) : (filesOf a s).bytes f = fileBytes a s.dev f :=
  if_pos (has_filesOf (a := a).mpr hf)

theorem dir_filesOf (hf : f = 0 ∨ Live s.fsTable f) : (filesOf a s).dir f = dirOf a s.dev f := by
  unfold Files.dir
  rw [bytes_filesOf hf, dirOf_eq]

/-- A lookup leaves the files alone, but for the paths that are known. -/
theorem Looked.filesOf (h : Looked a s t) : filesOf a t = { filesOf a s with ids := t.mapFid } := by
  unfold Vol.filesOf
  rw [h.dev, h.table]

theorem freeFrom_filesOf (a : Args) (s : St) (n : ℕ) (i : ℤ) :
    (filesOf a s).freeFrom n i = freeFidFrom s.fsTable n i := by
  induction n generalizing i with
  | zero => rfl
  | succ n ih =>
    unfold Files.freeFrom freeFidFrom
    rw [ih]
    rfl

theorem next_filesOf (a : Args) (s : St) : (filesOf a s).next a = devFreeFid a s.fsTable :=
  freeFrom_filesOf a s _ _

/-- **Path resolution.** The induction is on the length of the path. -/
theorem VolOk.filesLook (now : UInt64) (n : ℕ) : ∀ {s : St} {path : Path} {r : ℤ} {st : Stat} {F : Files},
    VolOk a s → (filesOf a s).look n path = some (r, st, F) →
    ∃ t, opsGetattrAux a now n path false s = some (r, st, t) ∧ Looked a s t ∧ filesOf a t = F := by
  induction n with
  | zero =>
    intro s path r st F _ h
    cases h
  | succ n ih =>
    intro s path r st F hv h
    unfold Files.look at h
    unfold opsGetattrAux
    rw [if_neg Bool.false_ne_true]
    have hids : (filesOf a s).ids path = s.mapFid path := rfl
    rw [hids] at h
    cases hmap : s.mapFid path with
    | some st' =>
      rw [hmap] at h
      obtain ⟨rfl, hp⟩ := Prod.mk.inj (Option.some.inj h)
      obtain ⟨rfl, rfl⟩ := Prod.mk.inj hp
      exact ⟨s, rfl, Looked.refl a s, rfl⟩
    | none =>
      rw [hmap] at h
      dsimp only at h ⊢
      by_cases hroot : path = rootPath
      · rw [if_pos hroot] at h ⊢
        obtain ⟨rfl, hp⟩ := Prod.mk.inj (Option.some.inj h)
        obtain ⟨rfl, rfl⟩ := Prod.mk.inj hp
        exact ⟨s, rfl, Looked.refl a s, rfl⟩
      · rw [if_neg hroot] at h ⊢
        obtain ⟨np, hnp, h⟩ := Option.bind_eq_some_iff.mp h
        obtain ⟨⟨r', pst, F'⟩, hpar, h⟩ := Option.bind_eq_some_iff.mp h
        obtain ⟨u, hop, hlook, rfl⟩ := ih hv hpar
        rcases ite_eq_iff.mp h with ⟨hhas, h⟩ | ⟨-, h⟩
        · obtain ⟨name, hname, h⟩ := Option.bind_eq_some_iff.mp h
          have hvu := hlook.volOk hv
          have hlive := has_filesOf.mp hhas
          obtain ⟨d, v, hread, hd, hlook', hidsv, -⟩ := devReadDir_eq hvu.sound hlive
          have hfiles : filesOf a v = filesOf a u := by
            rw [hlook'.filesOf, hidsv]
            rfl
          have hdir : (filesOf a u).dir pst.stDev = d.getD [] := (dir_filesOf hlive).trans hd.symm
          dsimp only at h
          rw [hdir] at h
          cases hfind : (d.getD []).find? fun e => e.nameStr == name with
          | none =>
            rw [hfind] at h
            obtain ⟨rfl, hp⟩ := Prod.mk.inj (Option.some.inj h)
            obtain ⟨rfl, rfl⟩ := Prod.mk.inj hp
            refine ⟨v, ?_, hlook.trans hlook', hfiles⟩
            refine Option.bind_eq_some_iff.mpr ⟨np, hnp, ?_⟩
            refine Option.bind_eq_some_iff.mpr ⟨_, hop, ?_⟩
            refine Option.bind_eq_some_iff.mpr ⟨_, hread, ?_⟩
            refine Option.bind_eq_some_iff.mpr ⟨name, hname, ?_⟩
            dsimp only
            rw [hfind]
            rfl
          | some e =>
            rw [hfind] at h
            obtain ⟨rfl, hp⟩ := Prod.mk.inj (Option.some.inj h)
            obtain ⟨hst, rfl⟩ := Prod.mk.inj hp
            refine ⟨cacheStatAdd v path st, ?_, (hlook.trans hlook').trans (Looked.ids a v _), ?_⟩
            · refine Option.bind_eq_some_iff.mpr ⟨np, hnp, ?_⟩
              refine Option.bind_eq_some_iff.mpr ⟨_, hop, ?_⟩
              refine Option.bind_eq_some_iff.mpr ⟨_, hread, ?_⟩
              refine Option.bind_eq_some_iff.mpr ⟨name, hname, ?_⟩
              dsimp only
              rw [hfind, ← hst, ← hfiles]
              rfl
            · rw [← hst, ← hfiles]
              rfl
        · cases h

theorem VolOk.filesFind (hv : VolOk a s) {path : Path} {F : Files}
    (h : (filesOf a s).find path = some (f, F)) :
    ∃ t, fcfsGetFid a s path = some (f, t) ∧ Looked a s t ∧ filesOf a t = F := by
  obtain ⟨⟨r, st, F'⟩, hlook, h⟩ := Option.bind_eq_some_iff.mp h
  obtain ⟨rfl, rfl⟩ := Prod.mk.inj (Option.some.inj h)
  obtain ⟨t, hop, hl, hfiles⟩ := VolOk.filesLook 0 _ hv hlook
  exact ⟨t, Option.bind_eq_some_iff.mpr ⟨_, hop, rfl⟩, hl, hfiles⟩

theorem VolOk.filesParent (hv : VolOk a s) {path : Path} {F : Files}
    (h : (filesOf a s).parent path = some (f, F)) :
    ∃ t, fcfsGetPfid a s path = some (f, t) ∧ Looked a s t ∧ filesOf a t = F := by
  obtain ⟨np, hnp, h⟩ := Option.bind_eq_some_iff.mp h
  obtain ⟨t, hop, hl⟩ := hv.filesFind h
  exact ⟨t, Option.bind_eq_some_iff.mpr ⟨np, hnp, hop⟩, hl⟩

theorem VolOk.filesTarget (hv : VolOk a s) {path : Path} {fh : ℤ} {F : Files}
    (h : (filesOf a s).target path fh = some (f, F)) :
    ∃ t, Fcfs.writeFid a s path fh = some (f, t) ∧ Looked a s t ∧ filesOf a t = F := by
  unfold Files.target at h
  unfold Fcfs.writeFid
  by_cases hfh : fh = 0
  · rw [if_pos hfh] at h ⊢
    obtain ⟨t, hop, hl⟩ := hv.filesFind h
    refine ⟨t, Option.bind_eq_some_iff.mpr ⟨(0, f, t), ?_, rfl⟩, hl⟩
    exact Option.bind_eq_some_iff.mpr ⟨_, hop, rfl⟩
  · rw [if_neg hfh] at h ⊢
    obtain ⟨rfl, rfl⟩ := Prod.mk.inj (Option.some.inj h)
    exact ⟨s, rfl, Looked.refl a s, rfl⟩

end Lookups

/-! ### What requests do -/

section Requests
variable {a : Args} {s : St} {F : Files}

/-- Files are told apart by their links, their bytes and the paths known. -/
theorem filesOf_eq {s' : St} {lnk : ℤ → UInt8} {bytes : ℤ → List UInt8}
    (hlnk : ∀ g, (s'.fsTable.entrs g).lnkCnt = lnk g)
    (hbytes : ∀ g, g = 0 ∨ Live s'.fsTable g → fileBytes a s'.dev g = bytes g)
    (hnone : ∀ g, ¬ (g = 0 ∨ Live s'.fsTable g) → bytes g = []) :
    filesOf a s' = ⟨lnk, bytes, s'.mapFid⟩ := by
  have hb : (filesOf a s').bytes = bytes := by
    funext g
    by_cases hg : g = 0 ∨ Live s'.fsTable g
    · rw [bytes_filesOf hg, hbytes g hg]
    · rw [hnone g hg]
      exact if_neg fun h => hg (has_filesOf (a := a).mp h)
  have hl : (filesOf a s').lnk = lnk := funext hlnk
  rw [← hb, ← hl]
  rfl

/-- **`ops_create`** makes the file. -/
theorem VolOk.filesCreate (hv : VolOk a s) (hn : Numbered a) {now : UInt64} {path : Path} {mode : UInt32}
    (hok : MakeOk a s path) (hforget : Forgotten s (devFreeFid a s.fsTable) (firstFree a s))
    (hname : ∀ name, baseName path = some name → name.length < 32)
    (h : (filesOf a s).create a now path mode = some F) :
    ∃ s', opsCreate a now s path mode = some (0, s') ∧ VolOk a s' ∧ filesOf a s' = F := by
  obtain ⟨⟨p, F'⟩, hparent, h⟩ := Option.bind_eq_some_iff.mp h
  obtain ⟨name, hbase, h⟩ := Option.bind_eq_some_iff.mp h
  obtain rfl := Option.some.inj h
  obtain ⟨t, hpar, hlook, rfl⟩ := hv.filesParent hparent
  have hfirst := hforget.first hv.mounted hok.first_mem
  obtain ⟨s', hop, hmade⟩ := hv.create hn hok hfirst hpar hbase (hname name hbase) now mode
  obtain ⟨hft, hdead⟩ := devFreeFid_free hn hok.fid
  have hf0 := hok.fid
  obtain ⟨hp, -⟩ := hok.dir p t hpar
  have hpt : p = 0 ∨ Live t.fsTable p := by
    rw [hlook.table]
    exact hp
  refine ⟨s', hop, hok.volOk hn hv hforget hpar hmade, ?_⟩
  rw [next_filesOf, hlook.table, dir_filesOf hpt]
  have hlnk : ∀ g, (s'.fsTable.entrs g).lnkCnt =
      Function.update (filesOf a t).lnk (devFreeFid a s.fsTable) 1 g := by
    intro g
    by_cases hg : g = devFreeFid a s.fsTable
    · rw [hg, Function.update_self]
      exact hmade.newborn.lnk
    · rw [Function.update_of_ne hg, hmade.links g hg]
      rfl
  have hids : (filesOf a t).ids = s'.mapFid := hmade.ids.symm
  rw [hids]
  have hpf : p ≠ devFreeFid a s.fsTable := by
    rintro rfl
    exact hp.elim (fun h0 => by omega) hdead
  have hlive : ∀ g, g ≠ devFreeFid a s.fsTable → (Live s'.fsTable g ↔ Live t.fsTable g) := fun g hg =>
    ⟨fun hl => ⟨hl.nonneg, hl.lt, by rw [← hmade.links g hg]; exact hl.lnk⟩,
      fun hl => ⟨hl.nonneg, hl.lt, by rw [hmade.links g hg]; exact hl.lnk⟩⟩
  refine filesOf_eq hlnk (fun g hg => ?_) fun g hg => ?_
  · by_cases hgf : g = devFreeFid a s.fsTable
    · -- the new file is empty
      rw [hgf, Function.update_self, ← List.length_eq_zero_iff, length_fileBytes]
      exact hmade.fileSz hf0
    · rw [Function.update_of_ne hgf]
      by_cases hgp : g = p
      · rw [hgp, Function.update_self]
        exact hmade.bytes
      · obtain ⟨hg0, hgt⟩ := fid_range hg
        rw [Function.update_of_ne hgp, hmade.others g hg0 hgt hgf hgp, bytes_filesOf]
        rw [hlive g hgf] at hg
        exact hg
  · by_cases hgf : g = devFreeFid a s.fsTable
    · rw [hgf, Function.update_self]
    · rw [hlive g hgf] at hg
      have hgp : g ≠ p := by
        rintro rfl
        exact hg hpt
      rw [Function.update_of_ne hgf, Function.update_of_ne hgp]
      exact if_neg fun h => hg (has_filesOf (a := a).mp h)

/-- **`ops_write`** that begins no later than the file ends. -/
theorem VolOk.filesWrite (hv : VolOk a s) (hn : Numbered a) {path : Path} {data : Buf} {size offset : ℕ}
    {fh : ℤ} (hok : WriteOk a s path size offset fh)
    (h : (filesOf a s).write path data size offset fh = some F) :
    ∃ s', opsWrite a s path data size offset fh = some ((size : ℤ), s') ∧ VolOk a s' ∧
      filesOf a s' = F := by
  obtain ⟨⟨f, F'⟩, htarget, h⟩ := Option.bind_eq_some_iff.mp h
  obtain ⟨t, hfid, hlook, rfl⟩ := hv.filesTarget htarget
  rcases ite_eq_iff.mp h with ⟨⟨hhas, hoff⟩, h⟩ | ⟨-, h⟩
  · obtain rfl := Option.some.inj h
    have hvt := hlook.volOk hv
    have hf := has_filesOf.mp hhas
    obtain ⟨hf0, hft⟩ := fid_range hf
    obtain ⟨cl, -, hokf⟩ := hvt.files f hf
    obtain ⟨-, hfits⟩ := hok.file f t hfid
    rw [bytes_filesOf hf] at hoff
    obtain ⟨s', hop, hvs, hw, hput⟩ := hvt.write hn.clus hf hfid data hok.int hfits
    refine ⟨s', hop, hvs, ?_⟩
    have hlnk : ∀ g, (s'.fsTable.entrs g).lnkCnt = (filesOf a t).lnk g := by
      intro g
      by_cases hg : g = f
      · rw [hg, hw.lnk]
        rfl
      · rw [hw.onFile.others g hg]
        rfl
    have hlive : ∀ g, Live s'.fsTable g ↔ Live t.fsTable g := fun g =>
      ⟨fun hl => ⟨hl.nonneg, hl.lt, fun hz => hl.lnk ((hlnk g).trans hz)⟩,
        fun hl => ⟨hl.nonneg, hl.lt, fun hz => hl.lnk ((hlnk g).symm.trans hz)⟩⟩
    have hids : (filesOf a t).ids = s'.mapFid := hw.onFile.ids.symm
    rw [hids]
    refine filesOf_eq hlnk (fun g hg => ?_) fun g hg => ?_
    · rw [hlive g] at hg
      by_cases hgf : g = f
      · rw [hgf, Function.update_self, bytes_filesOf hf]
        exact hput.fileBytes hvt.mounted hokf hok.int hoff
      · obtain ⟨hg0, hgt⟩ := fid_range hg
        rw [Function.update_of_ne hgf, bytes_filesOf hg]
        exact hw.onFile.fileBytes hf0 hft hgf hg0 hgt hokf.owned
    · rw [hlive g] at hg
      have hgf : g ≠ f := by
        rintro rfl
        exact hg hf
      rw [Function.update_of_ne hgf]
      exact if_neg fun h => hg (has_filesOf (a := a).mp h)
  · cases h

/-- **`ops_read`** of bytes that are there. -/
theorem VolOk.filesRead (hv : VolOk a s) {buf buf' : Buf} {size offset : ℕ} {fh : ℤ}
    (h : (filesOf a s).read buf size offset fh = some buf') :
    ∃ s', opsRead a s buf size offset fh = some ((size : ℤ), buf', s') ∧ VolOk a s' ∧
      filesOf a s' = filesOf a s := by
  unfold Files.read at h
  rcases ite_eq_iff.mp h with ⟨⟨hhas, hin⟩, h⟩ | ⟨-, h⟩
  · have hf := has_filesOf.mp hhas
    rw [bytes_filesOf hf] at hin h
    obtain ⟨l, c, cl, hop, hl, -, hok, hlook⟩ := hv.sound.lookup hf
    have hm : Mounted a (Vol.looked s fh c l).dev := hv.mounted
    have hseq := hok.seqOk.perm hl
    have hcont : content a s.dev l = content a s.dev (nodesAt a (tab a s.dev) fh) :=
      content_perm hok.seqOk hl s.dev
    have hsz := hok.size
    rw [← hl.length_eq, ← fileSz_perm hok.seqOk hl] at hsz
    have hne : l ≠ [] := by
      rintro rfl
      exact hok.ne hl.symm.eq_nil
    rw [length_fileBytes, ← fileSz_perm hok.seqOk hl] at hin
    have hread := opsRead_eq hseq hne hm hop hsz (hseq.bytes_lt hm) buf hin
    refine ⟨_, ?_, hlook.volOk hv, hlook.filesOf⟩
    rw [hread, ← Option.some.inj h]
    refine congrArg (fun b => some ((size : ℤ), b, Vol.looked s fh c l)) (funext fun i => ?_)
    by_cases hi : i < size
    · have hsize : offset + i < leNat 4 (content a s.dev (nodesAt a (tab a s.dev) fh)) := by
        rw [← hcont]
        unfold fileSz at hin
        exact lt_of_lt_of_le (by omega) hin
      rw [memcpy_in (Nat.zero_le i) (by omega), memcpy_in (Nat.zero_le i) (by omega), shift_apply,
        Nat.sub_zero]
      unfold fileBytes
      rw [getD_bytesOf hsize, ← hcont]
      show content a s.dev l _ = _
      congr 1
      omega
    · rw [memcpy_out (by omega), memcpy_out (by omega)]
  · cases h

end Requests

end Fcfs.Vol
