import Fcfs.Lib.Tree
import Fcfs.Vol.Namespace

/-! # The volume as a tree of files

`treeOf` is what a volume in order stands for: a tree of directories and files with their identifiers,
modes, times and bytes, and nothing of blocks, clusters, tables and caches. Lookups leave it alone
(`TreeOk.treeOf_congr`). A file that is made is a node put in, a file that is removed a node taken out, and
what is written to a file are its new contents (`TreeOk.create_tree`, `TreeOk.remove_tree`,
`TreeOk.write_tree`). -/

namespace Fcfs.Vol

open Lib.Bytes Lib.Walks Lib.Tree

/-! ### The tree -/

/-- What is known of a file besides its contents. -/
structure Attr where
  mode : UInt32
  atime : UInt64
  mtime : UInt64
  ctime : UInt64

/-- A file or a directory, under its identifier. -/
abbrev FsNode := Node ℤ Attr (List UInt8)

/-- A tree of them, with names in bytes. -/
abbrev FsTree := FileTree (List UInt8) ℤ Attr (List UInt8)

/-- What an entry says of its file. -/
def attrOf (e : DirEntry) : Attr := ⟨e.mode, e.atime, e.mtime, e.ctime⟩

/-- The root, of which nothing is stored. -/
def rootNode : FsNode := ⟨0, ⟨0o40777, 0, 0, 0⟩, none⟩

theorem rootNode_id : rootNode.id = 0 := rfl

theorem rootNode_body : rootNode.body = none := rfl

instance (a : Args) (d : Dev) : DecidablePred (dirs a d).isDir :=
  inferInstanceAs (DecidablePred IsDir)

section Tree
variable {a : Args} {s t : St} {ns : List (List UInt8)} {n : List UInt8} {p f : ℤ} {x : FsNode}

theorem TreeOk.distinct (h : TreeOk a s) : (dirs a s.dev).Distinct 0 := h.tree.nodup

/-- **The tree of a volume in order.** -/
def treeOf (h : TreeOk a s) : FsTree :=
  h.once.tree attrOf (fileBytes a s.dev) h.distinct rootNode_id rootNode_body

theorem TreeOk.treeOf_congr (h : TreeOk a s) (h' : TreeOk a t) (hdev : t.dev = s.dev) :
    treeOf h' = treeOf h := by
  refine FileTree.ext fun ns => ?_
  show (dirs a t.dev).stands attrOf (fileBytes a t.dev) rootNode 0 ns = _
  rw [hdev]
  rfl

variable (h : TreeOk a s)
include h

theorem treeOf_walk (hx : (treeOf h).find ns = some x) : Walk (dirs a s.dev) 0 ns x.id :=
  stands_walk h.distinct rfl hx

theorem walk_treeOf (hw : Walk (dirs a s.dev) 0 ns f) : ∃ x, (treeOf h).find ns = some x ∧ x.id = f :=
  walk_stands h.distinct rfl hw

theorem treeOf_dir (hx : (treeOf h).find ns = some x) (hdir : x.body = none) :
    Through (dirs a s.dev) 0 ns x.id := stands_dir h.distinct rfl hx hdir

theorem through_treeOf (hg : Through (dirs a s.dev) 0 ns p) :
    ∃ x, (treeOf h).find ns = some x ∧ x.body = none ∧ x.id = p := stands_through h.distinct rfl rfl hg

theorem treeOf_file {c : List UInt8} (hx : (treeOf h).find ns = some x) (hfile : x.body = some c) :
    c = fileBytes a s.dev x.id ∧ ∀ g, ¬ Through (dirs a s.dev) 0 ns g := by
  refine ⟨stands_file rfl hx hfile, fun g hg => ?_⟩
  obtain ⟨y, hy, hdir, -⟩ := through_treeOf h hg
  obtain rfl := Option.some.inj (hx.symm.trans hy)
  rw [hdir] at hfile
  cases hfile

theorem treeOf_names (hg : Through (dirs a s.dev) 0 ns p) :
    n ∈ (treeOf h).names ns ↔ n ∈ (dirOf a s.dev p).map DirEntry.nameStr := stands_names h.distinct hg

end Tree

/-! ### Making a file -/

/-- The node of a new file. -/
def newNode (f : ℤ) (now : UInt64) (mode : UInt32) : FsNode :=
  ⟨f, ⟨mode, now, now, now⟩, if mode &&& 0o170000 = 0o40000 then none else some []⟩

section Make
variable {a : Args} {s s' t : St} {p r : ℤ} {D : Path} {name : List UInt8} {now : UInt64} {mode m : UInt32}

/-- **What has been made** is put in. -/
theorem TreeOk.made_tree (h : TreeOk a s) (hn : Numbered a) (hnew : NewName a s D name p)
    (hlen : name.length < 32) (hok : MakeOk a s (joinPath D name)) (htr : Traced a D p s t)
    (hmade : Made a (devFreeFid a s.fsTable) p (firstFree a s) (newEntry now (devFreeFid a s.fsTable) name m)
      t s') (h' : TreeOk a s') :
    ∃ hd hn hi, treeOf h' =
      (treeOf h).insert (components D) name (newNode (devFreeFid a s.fsTable) now m) hd hn hi := by
  have ht := h.of_traced htr
  have hlook := htr.looked
  have hent := hok.entered hn hlook hmade h'.vol
  have hname := nameStr_newEntry now (devFreeFid a s.fsTable) m hlen hnew.nul
  have hdir : Through (dirs a t.dev) 0 (components D) p := by
    rw [hlook.dev]
    exact hnew.dir
  have hnode : (dirs a t.dev).nodeOf attrOf (fileBytes a s'.dev)
      (newEntry now (devFreeFid a s.fsTable) name m) = newNode (devFreeFid a s.fsTable) now m := by
    have hnone : fileBytes a s'.dev (devFreeFid a s.fsTable) = [] := by
      rw [← List.length_eq_zero_iff, length_fileBytes]
      exact hmade.fileSz hok.fid
    unfold Dirs.nodeOf newNode
    rw [show (dirs a t.dev).node (newEntry now (devFreeFid a s.fsTable) name m) = _ from hent.node, hnone]
    rfl
  rw [← h.treeOf_congr ht hlook.dev]
  refine ht.once.tree_add ht.distinct h'.once h'.distinct rfl rfl (hent.gained ht.tree) hdir ?_ ?_
    (fun g hg hgp => ?_) hnode hname
  · show (newEntry _ _ _ _).nameStr ∉ (dirOf a t.dev p).map DirEntry.nameStr
    rw [hname, hlook.dev]
    exact hnew.new
  · show ¬ (fidOf _ = 0 ∨ Live t.fsTable (fidOf _))
    rw [hent.node]
    exact hent.dead
  · have hgf : g ≠ devFreeFid a s.fsTable := by
      rintro rfl
      exact hent.dead (Or.inr hg)
    exact hmade.others g hg.nonneg hg.lt hgf hgp

/-- **`ops_create` and `ops_mkdir`** put a node in. -/
theorem TreeOk.make_tree (h : TreeOk a s) (hn : Numbered a) (hnew : NewName a s D name p)
    (hlen : name.length < 32) (hok : MakeOk a s (joinPath D name)) (hfresh : FreshIn a s (joinPath D name))
    {out : Option (ℤ × St)}
    (hout : out = opsCreate a now s (joinPath D name) mode ∧ m = 0o100000 ||| mode ∨
      out = opsMkdir a now s (joinPath D name) mode ∧ m = 0o40000 ||| mode) :
    ∃ s', out = some (0, s') ∧ ∃ h' : TreeOk a s', ∃ hd hn hi, treeOf h' =
      (treeOf h).insert (components D) name (newNode (devFreeFid a s.fsTable) now m) hd hn hi := by
  obtain ⟨hforget, hstale⟩ := hfresh
  obtain ⟨t, hpar, htr⟩ := h.pfid hnew
  have hfirst := hforget.first h.vol.mounted hok.first_mem
  have hbase := baseName_join D hnew.slash
  rcases hout with ⟨rfl, rfl⟩ | ⟨rfl, rfl⟩
  · obtain ⟨s', hop, hmade⟩ := h.vol.create hn hok hfirst hpar hbase hlen now mode
    have h' := h.make hn hnew hlen hok hforget hstale (Or.inl rfl) hop
    exact ⟨s', hop, h', h.made_tree hn hnew hlen hok htr hmade h'⟩
  · obtain ⟨s', hop, hmade⟩ := h.vol.mkdir hn hok hfirst hpar hbase hlen now mode
    have h' := h.make hn hnew hlen hok hforget hstale (Or.inr rfl) hop
    exact ⟨s', hop, h', h.made_tree hn hnew hlen hok htr hmade h'⟩

end Make

/-! ### The identifier of a new file -/

theorem freeFidFrom_passed {t : FcfsTable} : ∀ {n : ℕ} {i j : ℤ}, 0 ≤ i → i ≤ j → j < freeFidFrom t n i →
    (t.entrs j).lnkCnt ≠ 0
  | 0, i, j, hi, hij, hj => by
    unfold freeFidFrom at hj
    omega
  | n + 1, i, j, hi, hij, hj => by
    unfold freeFidFrom at hj
    split_ifs at hj with hz
    · omega
    · rcases eq_or_lt_of_le hij with rfl | hlt
      · exact hz
      · exact freeFidFrom_passed (by omega) (by omega) hj

theorem TreeOk.placed {a : Args} {s : St} {f : ℤ} (h : TreeOk a s) (hlive : Live s.fsTable f) (hf : f ≠ 0) :
    ∃ ns x, (treeOf h).find ns = some x ∧ x.id = f := by
  obtain ⟨g, ⟨ns, hg⟩, hmem⟩ := h.once.found f hf hlive
  obtain ⟨e, he, rfl⟩ := List.mem_map.mp hmem
  exact ⟨_, walk_treeOf h (hg.snoc he)⟩

theorem TreeOk.live_id {a : Args} {s : St} {ns : List (List UInt8)} {x : FsNode} (h : TreeOk a s)
    (hx : (treeOf h).find ns = some x) : ns = [] ∧ x = rootNode ∨ x.id ≠ 0 ∧ Live s.fsTable x.id := by
  rcases List.eq_nil_or_concat ns with rfl | ⟨ns, n, rfl⟩
  · exact Or.inl ⟨rfl, (Option.some.inj hx).symm⟩
  · rw [List.concat_eq_append] at hx
    obtain ⟨e, he, rfl⟩ := Option.map_eq_some_iff.mp ((h.once.find_snoc h.distinct rfl rfl).symm.trans hx)
    exact Or.inr (h.once.lookup_named h.distinct he)

/-- The identifiers that no file of the tree has. -/
def unusedIds (t : FsTree) : Set ℤ := {k | 0 < k ∧ ∀ ns x, t.find ns = some x → x.id ≠ k}

/-- **The identifier of a new file** is the least that no file of the tree has. -/
theorem TreeOk.isLeast_freeFid {a : Args} {s : St} (h : TreeOk a s) (hn : Numbered a)
    (hpos : 0 < devFreeFid a s.fsTable) : IsLeast (unusedIds (treeOf h)) (devFreeFid a s.fsTable) := by
  obtain ⟨hlt, hdead⟩ := devFreeFid_free hn hpos
  refine ⟨⟨hpos, fun ns x hx heq => ?_⟩, fun k ⟨hk, hout⟩ => ?_⟩
  · rcases h.live_id hx with ⟨-, rfl⟩ | ⟨-, hlive⟩
    · exact hpos.ne heq
    · exact hdead (heq ▸ hlive)
  · by_contra hlt'
    have hlive : Live s.fsTable k := ⟨hk.le, by omega, freeFidFrom_passed (by omega) (by omega) (not_le.mp hlt')⟩
    obtain ⟨ns, x, hx, heq⟩ := h.placed hlive hk.ne'
    exact hout ns x hx heq

/-! ### Removing a file -/

section Remove
variable {a : Args} {s s' t : St} {f p : ℤ} {path D : Path} {name : List UInt8} {x : FsNode}

/-- The directory and the entry of a path that leads somewhere. -/
theorem TreeOk.entry (h : TreeOk a s) (hhead : path.head? = some 47) (hroot : path ≠ rootPath)
    (hleads : Leads a s path f) : ∃ D p e, path = joinPath D e.nameStr ∧ D.head? = some 47 ∧
      (47 : UInt8) ∉ e.nameStr ∧ e.nameStr ≠ [] ∧ Through (dirs a s.dev) 0 (components D) p ∧
      e ∈ dirOf a s.dev p ∧ fidOf e = f := by
  obtain ⟨D, name, rfl, hheadD, hslash, hne⟩ := exists_join h.tree hhead hroot hleads
  unfold Leads at hleads
  rw [components_join hheadD hslash hne] at hleads
  obtain ⟨p, hp, e, he, rfl, rfl⟩ := walk_snoc.mp hleads
  exact ⟨D, p, e, rfl, hheadD, hslash, hne, hp, he, rfl⟩

/-- **What `ops_unlink` does with a file**: it is taken out, and the bytes of the others stay. -/
theorem TreeOk.unlink_bytes (h : TreeOk a s) (hn : Numbered a) (hhead : path.head? = some 47)
    (hroot : path ≠ rootPath) (hleads : Leads a s path f) :
    ∃ p t s', opsUnlink a s path = some (0, s') ∧ TakenOut a f p s t s' ∧
      ∀ g : ℤ, 0 ≤ g → g < tableLen → g ≠ f → g ≠ p → fileBytes a s'.dev g = fileBytes a t.dev g := by
  obtain ⟨D, p, e, rfl, hheadD, hslash, hne, hp, he, rfl⟩ := h.entry hhead hroot hleads
  obtain ⟨t, hfid, htr⟩ := fcfsGetFid_traced h.tree h.stat hhead hleads
  have ht := h.of_traced htr
  obtain ⟨u, hfidu, htru⟩ := fcfsGetFid_traced ht.tree ht.stat hheadD (htr.looked.leads hp.walk)
  have hpar : fcfsGetPfid a t (joinPath D e.nameStr) = some (p, u) :=
    Option.bind_eq_some_iff.mpr ⟨_, parentPath_join hheadD hslash, hfidu⟩
  have hu := ht.of_traced htru
  have hlook := htr.looked.trans htru.looked
  rw [← hlook.dev] at hp he
  have hmem : fidOf e ∈ (dirs a u.dev).nodes p := List.mem_map_of_mem he
  obtain ⟨hf0, hlive⟩ := hu.once.named p hp.reach _ hmem
  have hpf : p ≠ fidOf e := fun heq => hu.once.not_self hp.reach (heq ▸ hmem)
  obtain ⟨s', hrm, hv, hrem, hbytes⟩ := hu.vol.rmFile_others hn.clus hlive hf0 (hu.tree.live hp) hpf
  refine ⟨p, u, s', ?_, ⟨hlook, hu, hv, hrem, hrem.taken hu hp.reach hmem hbytes⟩, hbytes⟩
  refine Option.bind_eq_some_iff.mpr ⟨_, hfid, Option.bind_eq_some_iff.mpr ⟨_, hpar, ?_⟩⟩
  exact Option.bind_eq_some_iff.mpr ⟨_, hrm, rfl⟩

/-- **`ops_unlink` and `ops_rmdir`** take a node out. -/
theorem TreeOk.remove_tree (h : TreeOk a s) (hn : Numbered a) (hhead : path.head? = some 47)
    (hroot : path ≠ rootPath) (hx : (treeOf h).find (components path) = some x)
    (hleaf : ∀ n, (treeOf h).find (components path ++ [n]) = none) :
    ∃ s', opsUnlink a s path = some (0, s') ∧ ∃ h' : TreeOk a s', ∃ ns n hl,
      components path = ns ++ [n] ∧ treeOf h' = (treeOf h).erase ns n hl := by
  have hleads : Leads a s path x.id := treeOf_walk h hx
  obtain ⟨p, t, s', hop, hout, hbytes⟩ := h.unlink_bytes hn hhead hroot hleads
  have ht := hout.tree
  have hempty : Reach (dirs a t.dev) 0 x.id → dirOf a t.dev x.id = [] := by
    intro hreach
    have hthrough := ht.once.through_of_walk (hout.looked.leads hleads) hreach
    rw [hout.looked.dev] at hthrough ⊢
    rw [List.eq_nil_iff_forall_not_mem]
    intro e he
    exact (treeOf_names h hthrough).mpr (List.mem_map_of_mem he) (hleaf _)
  have h' := hout.treeOk hempty
  obtain ⟨D, p', e, rfl, hheadD, hslash, hne, hp, he, heq⟩ := h.entry hhead hroot hleads
  have hcomp := components_join hheadD hslash hne
  have hwalk : Walk (dirs a t.dev) 0 (components D ++ [e.nameStr]) x.id := by
    rw [hout.looked.dev, ← heq]
    exact hp.snoc he
  obtain ⟨hl, htree⟩ : ∃ hl, treeOf h' = (treeOf h).erase (components D) e.nameStr hl := by
    rw [← h.treeOf_congr ht hout.looked.dev]
    exact ht.once.tree_drop ht.distinct h'.once h'.distinct rfl rfl hout.taken hempty hwalk
      fun g hg hgp hgf => hbytes g hg.nonneg hg.lt hgf hgp
  exact ⟨s', hop, h', components D, e.nameStr, hl, hcomp, htree⟩

end Remove

/-! ### Writing to a file -/

section Write
variable {a : Args} {s s' : St} {f fh : ℤ} {path : Path} {data : Buf} {size offset : ℕ} {x : FsNode}
  {c : List UInt8}

theorem TreeOk.file_live (h : TreeOk a s) {ns : List (List UInt8)} (hx : (treeOf h).find ns = some x)
    (hfile : x.body = some c) : ns ≠ [] ∧ x.id ≠ 0 ∧ Live s.fsTable x.id := by
  rcases h.live_id hx with ⟨-, rfl⟩ | hlive
  · cases hfile
  · refine ⟨?_, hlive⟩
    rintro rfl
    obtain rfl := Option.some.inj hx
    cases hfile

/-- **`ops_write`** up to the end of a file or over it changes what the file holds. -/
theorem TreeOk.write_tree (h : TreeOk a s) (hn : Numbered a) (hhead : path.head? = some 47)
    (hx : (treeOf h).find (components path) = some x) (hfile : x.body = some c) (hfh : fh = 0 ∨ fh = x.id)
    (hok : WriteOk a s path size offset fh) (hoff : offset ≤ c.length) :
    ∃ s', opsWrite a s path data size offset fh = some ((size : ℤ), s') ∧ ∃ h' : TreeOk a s',
      treeOf h' = (treeOf h).write (components path) (overwrite c data size offset) := by
  have hleads : Leads a s path x.id := treeOf_walk h hx
  obtain ⟨rfl, hnot⟩ := treeOf_file h hx hfile
  obtain ⟨hne, -, -⟩ := h.file_live hx hfile
  obtain ⟨t, hfid, ht, hlook⟩ := h.writeFid hhead hleads hfh
  obtain ⟨hf, hfits⟩ := hok.file x.id t hfid
  rw [← hlook.table] at hf
  obtain ⟨h0, hft⟩ := fid_range hf
  obtain ⟨s', hop, hv, hwritten, hput⟩ := ht.vol.write hn.clus hf hfid data hok.int hfits
  obtain ⟨cl, -, hfok⟩ := ht.vol.files x.id hf
  have h' := h.write hn hhead hleads hfh hok hnot hop
  have hon := hwritten.onFile
  have hsame : ∀ g : ℤ, 0 ≤ g → g < tableLen → g ≠ x.id → fileBytes a s'.dev g = fileBytes a t.dev g :=
    fun g hg0 hgt hgf => hon.fileBytes h0 hft hgf hg0 hgt hfok.owned
  have hbytes : fileBytes a s'.dev x.id = overwrite (fileBytes a s.dev x.id) data size offset := by
    rw [← hlook.dev] at hoff ⊢
    exact hput.fileBytes ht.vol.mounted hfok hok.int hoff
  obtain ⟨ns, n, hcomp⟩ := List.eq_nil_or_concat' (components path) |>.resolve_left hne
  refine ⟨s', hop, h', ?_⟩
  rw [← hbytes, ← h.treeOf_congr ht hlook.dev, hcomp]
  refine ht.once.tree_write ht.distinct h'.once h'.distinct rfl rfl (fun g hg => ?_) ?_ fun g hg _ hgf =>
    hsame g hg.nonneg hg.lt hgf
  · obtain ⟨hg0, hgt⟩ := fid_range (ht.once.node hg)
    have hgf : g ≠ x.id := by
      rintro rfl
      refine hnot x.id ?_
      rw [← hlook.dev]
      exact ht.once.through_of_walk (hlook.leads hleads) hg
    show dirOf a s'.dev g = dirOf a t.dev g
    rw [dirOf_eq, hsame g hg0 hgt hgf, ← dirOf_eq]
  · rw [hlook.dev, ← hcomp]
    exact hleads

end Write

end Fcfs.Vol
