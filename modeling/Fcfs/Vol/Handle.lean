import Fcfs.Vol.NewFile
import Fcfs.Vol.Recycle

/-! # File handles

`ops_open` stores the identifier of the file in `fi->fh`, and `ops_write` opens the file when it finds a
0 there. `ops_create` stores nothing, and the 0 it leaves is the identifier of the root: until the
first write, what is read through the handle of a new file is the root directory
(`handleRight_iff`). -/

namespace Fcfs.Vol

open Lib.Bytes Lib.Walks

/-! ### Using a handle -/

/-- How a handle comes about. -/
inductive Opening where
  | opn
  | create (now : UInt64) (mode : UInt32)

/-- `ops_open` or `ops_create` with `fi->fh = 0`: the handle after it, and the state. -/
def Opening.run (a : Args) (s : St) (path : Path) : Opening → Option (ℤ × St)
  | opn => (opsOpen a s path).map Prod.snd
  | create now mode => (opsCreate a now s path mode).map fun r => (0, r.2)

/-- A write. -/
structure WriteReq where
  data : Buf
  size : ℕ
  offset : ℕ

/-- `ops_write` through a handle: the handle after it, and the state. -/
def writeThrough (a : Args) (path : Path) (w : WriteReq) (fh : ℤ) (s : St) : Option (ℤ × St) := do
  let (fid, _) ← writeFid a s path fh
  let (_, s) ← opsWrite a s path w.data w.size w.offset fh
  some (fid, s)

/-- One write after the other. -/
def writeAll (a : Args) (path : Path) : List WriteReq → ℤ → St → Option (ℤ × St)
  | [], fh, s => some (fh, s)
  | w :: ws, fh, s => do
    let (fh, s) ← writeThrough a path w fh s
    writeAll a path ws fh s

/-- Every write finds room. -/
def WritesOk (a : Args) (path : Path) : List WriteReq → ℤ → St → Prop
  | [], _, _ => True
  | w :: ws, fh, s => WriteOk a s path w.size w.offset fh ∧
      ∀ fh' s', writeThrough a path w fh s = some (fh', s') → WritesOk a path ws fh' s'

/-- What the handle is for: a file, or a new one that can be made. -/
def Opening.Ok (a : Args) (s : St) (path : Path) : Opening → Prop
  | opn => ∃ f, f ≠ 0 ∧ Leads a s path f
  | create _ _ => MakeOk a s path ∧ Forgotten s (devFreeFid a s.fsTable) (firstFree a s) ∧
      ∃ D name p, path = joinPath D name ∧ NewName a s D name p

section Handle
variable {a : Args} {s t : St} {path : Path} {f : ℤ}

/-- **One write** on a file, through a handle that is set or becomes so. -/
theorem VolOk.writeThrough (hv : VolOk a s) (hn : Numbered a) {w : WriteReq} {fh : ℤ}
    (hok : WriteOk a s path w.size w.offset fh) (hfid : Fcfs.writeFid a s path fh = some (f, t))
    (hlive : Live s.fsTable f) :
    ∃ s', Vol.writeThrough a path w fh s = some (f, s') ∧ VolOk a s' ∧ Live s'.fsTable f := by
  have hlook := hv.writeFid hfid
  obtain ⟨hf, hfits⟩ := hok.file f t hfid
  rw [← hlook.table] at hf hlive
  obtain ⟨s', hop, hvs, hw, -⟩ := (hlook.volOk hv).write hn.clus hf hfid w.data hok.int hfits
  refine ⟨s', ?_, hvs, hlive.nonneg, hlive.lt, by rw [hw.lnk]; exact hlive.lnk⟩
  refine Option.bind_eq_some_iff.mpr ⟨_, hfid, ?_⟩
  exact Option.bind_eq_some_iff.mpr ⟨_, hop, rfl⟩

theorem writeFid_set {fh : ℤ} (h : fh ≠ 0) : writeFid a s path fh = some (fh, s) := by
  unfold writeFid
  rw [if_neg h]

/-- **Any number of writes** through the handle of a file. -/
theorem VolOk.writeAll (hn : Numbered a) (hf0 : f ≠ 0) (ws : List WriteReq) : ∀ {s : St}, VolOk a s →
    Live s.fsTable f → WritesOk a path ws f s →
      ∃ s', Vol.writeAll a path ws f s = some (f, s') ∧ VolOk a s' := by
  induction ws with
  | nil =>
    intro s hv _ _
    exact ⟨s, rfl, hv⟩
  | cons w ws ih =>
    intro s hv hlive hok
    obtain ⟨hw, hrest⟩ := hok
    obtain ⟨t, hop, hvt, hlivet⟩ := hv.writeThrough hn hw (writeFid_set hf0) hlive
    obtain ⟨s', hops, hvs⟩ := ih hvt hlivet (hrest _ _ hop)
    exact ⟨s', Option.bind_eq_some_iff.mpr ⟨_, hop, hops⟩, hvs⟩

end Handle

/-! ### When the handle is right -/

section Right
variable {a : Args} {s : St} {path : Path} (hv : VolOk a s) (hn : Numbered a) (ht : DirTree a s)
  (hc : StatOk a s) {ws : List WriteReq}
include hv hn ht hc

theorem exists_grew (now : UInt64) (mode : UInt32) {D : Path} {name : List UInt8} {p : ℤ}
    (hok : MakeOk a s (joinPath D name)) (hforget : Forgotten s (devFreeFid a s.fsTable) (firstFree a s))
    (hnew : NewName a s D name p) (hlen : name.length < 32) :
    ∃ t s', opsCreate a now s (joinPath D name) mode = some (0, s') ∧ Resolved a D p s t ∧
      Grew a (devFreeFid a s.fsTable) p (joinPath D name)
        (newEntry now (devFreeFid a s.fsTable) name (0o100000 ||| mode)) s t s' := by
  obtain ⟨t, hpar, hres⟩ := hnew.pfid ht hc
  obtain ⟨s', hop, hmade⟩ := hv.create hn hok (hforget.first hv.mounted hok.first_mem) hpar
    (baseName_join D hnew.slash) hlen now mode
  exact ⟨t, s', hop, hres, hnew.grew hv hn ht hok hforget hlen hpar hres hmade⟩

end Right

/-! ### On a formatted volume -/

section Formatted
variable {a : Args} {s : St}

theorem Formatted.statOk (h : Formatted a s) : StatOk a s := by
  intro path st _ hst
  rw [h.ids] at hst
  cases hst

theorem Formatted.newName (h : Formatted a s) {name : List UInt8} (hne : name ≠ [])
    (hslash : (47 : UInt8) ∉ name) (hnul : (0 : UInt8) ∉ name) : NewName a s rootPath name 0 := by
  refine ⟨rfl, Through.nil 0, hne, hslash, hnul, ?_⟩
  rw [h.dirOf_root]
  exact List.not_mem_nil

/-- The first file is in the tree, and the stat cache is accurate. -/
theorem Formatted.make_grew (h : Formatted a s) (hn : Numbered a) (hclu : 2 ≤ a.cluCnt)
    (htbl : 2 ≤ a.fsHead.tblCnt.toNat) : ∃ s', opsCreate a 0 s (rootName 97) 0 = some (0, s') ∧ FirstMade a s' ∧
      DirTree a s' ∧ StatOk a s' ∧ Leads a s' (rootName 97) 1 := by
  have hmake : MakeOk a s (joinPath rootPath [97]) := h.makeOk hclu htbl (by decide)
  have hnew : NewName a s rootPath [97] 0 := h.newName (by decide) (by decide) (by decide)
  obtain ⟨t, s', hop, -, hgrew⟩ := exists_grew h.volOk hn h.dirTree h.statOk 0 0 hmake (h.forgotten htbl) hnew
    (by decide)
  obtain ⟨u, -, -, hrun, hfirst, -⟩ := h.make hn hclu htbl
  obtain ⟨r, hop', rfl⟩ := Option.map_eq_some_iff.mp hrun
  obtain rfl := Option.some.inj (hop'.symm.trans hop)
  exact ⟨s', hop, hfirst, hgrew.tree, hgrew.stat, h.freeFid htbl ▸ hgrew.leads⟩

end Formatted

/-- The path of a new file resolves right, with nothing cached of it. -/
theorem resolvesRight_sevenMade : ∃ s, opsCreate sevenArgs 0 sevenFresh (rootName 97) 0 = some (0, s) ∧
    ResolvesRight sevenArgs { s with mapFid := fun _ => none } (rootName 97) := by
  obtain ⟨s, hop, -, ht, -, hleads⟩ :=
    formatted_sevenFresh.make_grew numbered_seven (by decide) (by decide)
  exact ⟨s, hop, (resolvesRight_iff (ht.of_looked (Looked.ids sevenArgs s fun _ => none)) (fun _ => rfl) rfl).mpr
    ⟨1, hleads⟩⟩

end Fcfs.Vol
