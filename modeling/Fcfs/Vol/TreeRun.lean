import Fcfs.Calls
import Fcfs.Vol.Answers

/-! # The driver serves a tree of files

What the calls are for (`Does`): each looks at a tree of files or changes it in one place, and answers what
stands there. The driver does the same with the tree of a volume in order (`TreeOk.call`), so on a formatted
volume it answers call after call as the tree does that begins with nothing but its root. -/

namespace Fcfs.Vol

open Lib.Bytes Lib.Walks Lib.Tree

/-! ### What the calls are for -/

/-- A place for a new name: the directory is there, and nothing of that name in it. -/
structure FreePlace (t : FsTree) (D : Path) (name : List UInt8) : Prop where
  head : D.head? = some 47
  ne : name ≠ []
  slash : (47 : UInt8) ∉ name
  nul : (0 : UInt8) ∉ name
  dir : t.HasDir (components D)
  free : t.find (components D ++ [name]) = none

/-- **What a call does to a tree**, and what it answers. -/
inductive Does (a : Args) : FsTree → Call → Reply → FsTree → Prop
  | getattr {t : FsTree} {now : UInt64} {path : Path} {x : FsNode} {size : ℤ}
      (hx : t.find (components path) = some x) (hsize : SizeAt t (components path) x size) :
      Does a t (.getattr now path) (.stat 0 (statOf a now x size)) t
  | missing {t : FsTree} {now : UInt64} {path D : Path} {name : List UInt8} {st : Stat}
      (hpath : path = joinPath D name) (hfree : FreePlace t D name) :
      Does a t (.getattr now path) (.stat (-enoent) st) t
  | readdir {t : FsTree} {path : Path} {names : List (List UInt8)} (hnd : names.Nodup)
      (hnames : ∀ n, n ∈ names ↔ n ∈ t.names (components path)) :
      Does a t (.readdir path) (.names 0 ([46] :: [46, 46] :: names)) t
  | mkdir {t : FsTree} {now : UInt64} {path D : Path} {name : List UInt8} {mode : UInt32} {f : ℤ}
      (hpath : path = joinPath D name) (hfree : FreePlace t D name) (hf : IsLeast (unusedIds t) f) {hi} :
      Does a t (.mkdir now path mode) (.code 0)
        (t.insert (components D) name (newNode f now (0o40000 ||| mode)) hfree.dir hfree.free hi)
  | create {t : FsTree} {now : UInt64} {path D : Path} {name : List UInt8} {mode : UInt32} {f : ℤ}
      (hpath : path = joinPath D name) (hfree : FreePlace t D name) (hf : IsLeast (unusedIds t) f) {hi} :
      Does a t (.create now path mode) (.code 0)
        (t.insert (components D) name (newNode f now (0o100000 ||| mode)) hfree.dir hfree.free hi)
  | unlink {t : FsTree} {path : Path} {ns : List (List UInt8)} {n : List UInt8} {x : FsNode}
      (hpath : components path = ns ++ [n]) (hx : t.find (ns ++ [n]) = some x) {hl} :
      Does a t (.unlink path) (.code 0) (t.erase ns n hl)
  | rmdir {t : FsTree} {path : Path} {ns : List (List UInt8)} {n : List UInt8} {x : FsNode}
      (hpath : components path = ns ++ [n]) (hx : t.find (ns ++ [n]) = some x) {hl} :
      Does a t (.rmdir path) (.code 0) (t.erase ns n hl)
  | unlinkRoot {t : FsTree} {path : Path} (hroot : path = rootPath) : Does a t (.unlink path) (.code 0) t
  | rmdirRoot {t : FsTree} {path : Path} (hroot : path = rootPath) : Does a t (.rmdir path) (.code 0) t
  | opn {t : FsTree} {path : Path} {x : FsNode} (hx : t.find (components path) = some x) :
      Does a t (.opn path) (.handle 0 x.id) t
  | opendir {t : FsTree} {path : Path} {x : FsNode} (hx : t.find (components path) = some x) :
      Does a t (.opendir path) (.handle 0 x.id) t
  | read {t : FsTree} {buf : Buf} {size offset : ℕ} {fh : ℤ} {ns : List (List UInt8)} {x : FsNode}
      {c : List UInt8} (hx : t.find ns = some x) (hid : x.id = fh) (hfile : x.body = some c)
      (hoff : offset ≤ c.length) :
      Does a t (.read buf size offset fh)
        (.bytes ((min size (c.length - offset) : ℕ) : ℤ) (copied buf c size offset)) t
  | write {t : FsTree} {path : Path} {data : Buf} {size offset : ℕ} {fh : ℤ} {x : FsNode} {c : List UInt8}
      (hx : t.find (components path) = some x) (hfile : x.body = some c) (hfh : fh = 0 ∨ fh = x.id)
      (hoff : offset ≤ c.length) :
      Does a t (.write path data size offset fh) (.handle (size : ℤ) x.id)
        (t.write (components path) (overwrite c data size offset))
  | utimens {t : FsTree} {path : Path} : Does a t (.utimens path) (.code 0) t
  | chown {t : FsTree} {path : Path} {u g : UInt32} : Does a t (.chown path u g) (.code 0) t
  | truncate {t : FsTree} {path : Path} {offset : ℕ} : Does a t (.truncate path offset) (.code 0) t
  | flush {t : FsTree} {path : Path} {fh : ℤ} : Does a t (.flush path fh) (.code 0) t
  | release {t : FsTree} {fh : ℤ} : Does a t (.release fh) (.code 0) t
  | releasedir {t : FsTree} {fh : ℤ} : Does a t (.releasedir fh) (.code 0) t

/-- What the calls do one after the other. -/
inductive DoesAll (a : Args) : FsTree → List Call → List Reply → FsTree → Prop
  | nil {t : FsTree} : DoesAll a t [] [] t
  | cons {t u v : FsTree} {c : Call} {r : Reply} {cs : List Call} {rs : List Reply} (hdo : Does a t c r u)
      (hall : DoesAll a u cs rs v) : DoesAll a t (c :: cs) (r :: rs) v

/-! ### Calls that make sense -/

/-- **The call makes sense** for the tree: its path is there, or a place for it, what is made has less than
32 bytes of name, what is removed has nothing in it, and what is read or written is a file, from an offset in
it. -/
def Sensible (t : FsTree) : Call → Prop
  | .getattr _ path => path.head? = some 47 ∧ t.find (components path) ≠ none ∨
      ∃ D name, path = joinPath D name ∧ FreePlace t D name
  | .readdir path => path.head? = some 47 ∧ t.HasDir (components path)
  | .mkdir _ path _ => ∃ D name, path = joinPath D name ∧ FreePlace t D name ∧ name.length < 32
  | .create _ path _ => ∃ D name, path = joinPath D name ∧ FreePlace t D name ∧ name.length < 32
  | .unlink path => path.head? = some 47 ∧ t.find (components path) ≠ none ∧
      (path = rootPath ∨ ∀ n, t.find (components path ++ [n]) = none)
  | .rmdir path => path.head? = some 47 ∧ t.find (components path) ≠ none ∧
      (path = rootPath ∨ ∀ n, t.find (components path ++ [n]) = none)
  | .opn path => path.head? = some 47 ∧ t.find (components path) ≠ none
  | .opendir path => path.head? = some 47 ∧ t.find (components path) ≠ none
  | .read _ size offset fh => size < 2 ^ 31 ∧
      ∃ ns x c, t.find ns = some x ∧ x.id = fh ∧ x.body = some c ∧ offset ≤ c.length
  | .write path _ _ offset fh => path.head? = some 47 ∧
      ∃ x c, t.find (components path) = some x ∧ x.body = some c ∧ (fh = 0 ∨ fh = x.id) ∧ offset ≤ c.length
  | _ => True

/-- **Nothing runs out** for what is made or written. -/
def RoomFor (a : Args) (s : St) : Call → Prop
  | .mkdir _ path _ => MakeOk a s path
  | .create _ path _ => MakeOk a s path
  | .write path _ size offset fh => WriteOk a s path size offset fh
  | _ => True

/-- The caches hold nothing of the last file with the identifier or the path of what is made. -/
def FreshFor (a : Args) (s : St) : Call → Prop
  | .mkdir _ path _ => FreshIn a s path
  | .create _ path _ => FreshIn a s path
  | _ => True

section Call
variable {a : Args} {s : St}

theorem FreePlace.newName {D : Path} {name : List UInt8} {h : TreeOk a s} (hfree : FreePlace (treeOf h) D name) :
    ∃ p, NewName a s D name p := by
  obtain ⟨y, hy, hbody⟩ := hfree.dir
  have hg := treeOf_dir h hy hbody
  refine ⟨y.id, hfree.head, hg, hfree.ne, hfree.slash, hfree.nul, fun hin => ?_⟩
  exact (treeOf_names h hg).mpr hin hfree.free

theorem TreeOk.unlink_root (h : TreeOk a s) {path : Path} (hroot : path = rootPath) :
    ∃ s', opsUnlink a s path = some (0, s') ∧ ∃ h' : TreeOk a s', treeOf h' = treeOf h := by
  have hhead : path.head? = some 47 := by rw [hroot]; rfl
  have hparent : parentPath path = some path := by
    rw [hroot]
    exact parentPath_root List.not_mem_nil
  have hleads : ∀ t, Leads a t path 0 := fun t => by
    rw [hroot]
    exact Walk.nil 0
  obtain ⟨t, hfid, htr⟩ := fcfsGetFid_traced h.tree h.stat hhead (hleads s)
  have ht := h.of_traced htr
  obtain ⟨u, hfidu, htru⟩ := fcfsGetFid_traced ht.tree ht.stat hhead (hleads t)
  have hu := ht.of_traced htru
  have hpar : fcfsGetPfid a t path = some (0, u) := Option.bind_eq_some_iff.mpr ⟨_, hparent, hfidu⟩
  refine ⟨u, ?_, hu, h.treeOf_congr hu (htru.looked.dev.trans htr.looked.dev)⟩
  exact Option.bind_eq_some_iff.mpr ⟨_, hfid, Option.bind_eq_some_iff.mpr ⟨_, hpar, rfl⟩⟩

theorem TreeOk.release (h : TreeOk a s) (fh : ℤ) :
    ∃ h' : TreeOk a (cacheSeqRm s fh), treeOf h' = treeOf h := by
  have h' : TreeOk a (cacheSeqRm s fh) :=
    h.congr (h.vol.release fh) (fun _ _ => rfl) (fun _ _ => Iff.rfl) rfl
  exact ⟨h', h.treeOf_congr h' rfl⟩

theorem TreeOk.removes (h : TreeOk a s) (hn : Numbered a) {path : Path} (hhead : path.head? = some 47)
    (hx : (treeOf h).find (components path) ≠ none)
    (hleaf : path = rootPath ∨ ∀ n, (treeOf h).find (components path ++ [n]) = none) :
    ∃ s', opsUnlink a s path = some (0, s') ∧ ∃ h' : TreeOk a s',
      Does a (treeOf h) (.unlink path) (.code 0) (treeOf h') ∧
        Does a (treeOf h) (.rmdir path) (.code 0) (treeOf h') := by
  by_cases hroot : path = rootPath
  · obtain ⟨s', hop, h', heq⟩ := h.unlink_root hroot
    refine ⟨s', hop, h', ?_, ?_⟩
    · rw [heq]
      exact .unlinkRoot hroot
    · rw [heq]
      exact .rmdirRoot hroot
  · obtain ⟨x, hx⟩ := Option.ne_none_iff_exists'.mp hx
    obtain ⟨s', hop, h', ns, n, hl, hcomp, htree⟩ :=
      h.remove_tree hn hhead hroot hx (hleaf.resolve_left hroot)
    refine ⟨s', hop, h', ?_, ?_⟩
    · rw [htree]
      exact .unlink hcomp (hcomp ▸ hx)
    · rw [htree]
      exact .rmdir hcomp (hcomp ▸ hx)

theorem TreeOk.makes (h : TreeOk a s) (hn : Numbered a) {D : Path} {name : List UInt8} {now : UInt64}
    {mode m : UInt32} (hfree : FreePlace (treeOf h) D name) (hlen : name.length < 32)
    (hok : MakeOk a s (joinPath D name)) (hfresh : FreshIn a s (joinPath D name)) {out : Option (ℤ × St)}
    (hout : out = opsCreate a now s (joinPath D name) mode ∧ m = 0o100000 ||| mode ∨
      out = opsMkdir a now s (joinPath D name) mode ∧ m = 0o40000 ||| mode) :
    ∃ s', out = some (0, s') ∧ ∃ h' : TreeOk a s', ∃ f, IsLeast (unusedIds (treeOf h)) f ∧
      ∃ hd hn hi, treeOf h' = (treeOf h).insert (components D) name (newNode f now m) hd hn hi := by
  obtain ⟨p, hnew⟩ := hfree.newName
  obtain ⟨s', hop, h', htree⟩ := h.make_tree hn hnew hlen hok hfresh hout
  exact ⟨s', hop, h', _, h.isLeast_freeFid hn hok.fid, htree⟩

/-- **Every call does to the tree of a volume in order what it is for.** -/
theorem TreeOk.call (h : TreeOk a s) (hn : Numbered a) (c : Call) (hask : Sensible (treeOf h) c)
    (hroom : RoomFor a s c) (hfresh : FreshFor a s c) :
    ∃ r s', c.run a s = some (r, s') ∧ ∃ h' : TreeOk a s', Does a (treeOf h) c r (treeOf h') := by
  have hsame : ∀ {r : Reply} {s' : St}, c.run a s = some (r, s') → Does a (treeOf h) c r (treeOf h) →
      (∃ h' : TreeOk a s', treeOf h' = treeOf h) →
      ∃ r s', c.run a s = some (r, s') ∧ ∃ h' : TreeOk a s', Does a (treeOf h) c r (treeOf h') := by
    rintro r s' hrun hdoes ⟨h', heq⟩
    exact ⟨r, s', hrun, h', by rw [heq]; exact hdoes⟩
  cases c with
  | getattr now path =>
    rcases hask with ⟨hhead, hx⟩ | ⟨D, name, rfl, hfree⟩
    · obtain ⟨x, hx⟩ := Option.ne_none_iff_exists'.mp hx
      obtain ⟨size, s', hop, hsize, hcons⟩ := h.getattr hhead hx now
      exact hsame (Option.map_eq_some_iff.mpr ⟨_, hop, rfl⟩) (.getattr hx hsize) (h.consulted hcons)
    · obtain ⟨st, s', hop, hcons⟩ := h.getattr_missing hfree.head hfree.dir hfree.slash hfree.ne hfree.free now
      exact hsame (Option.map_eq_some_iff.mpr ⟨_, hop, rfl⟩) (.missing rfl hfree) (h.consulted hcons)
  | readdir path =>
    obtain ⟨hhead, x, hx, hbody⟩ := hask
    obtain ⟨names, s', hop, hnd, hnames, hcons⟩ := h.readdir hhead hx hbody
    exact hsame (Option.map_eq_some_iff.mpr ⟨_, hop, rfl⟩) (.readdir hnd hnames) (h.consulted hcons)
  | mkdir now path mode =>
    obtain ⟨D, name, rfl, hfree, hlen⟩ := hask
    obtain ⟨s', hop, h', f, hf, hd, hn, hi, htree⟩ := h.makes hn hfree hlen hroom hfresh (Or.inr ⟨rfl, rfl⟩)
    refine ⟨.code 0, s', Option.map_eq_some_iff.mpr ⟨_, hop, rfl⟩, h', ?_⟩
    rw [htree]
    exact .mkdir rfl hfree hf
  | create now path mode =>
    obtain ⟨D, name, rfl, hfree, hlen⟩ := hask
    obtain ⟨s', hop, h', f, hf, hd, hn, hi, htree⟩ := h.makes hn hfree hlen hroom hfresh (Or.inl ⟨rfl, rfl⟩)
    refine ⟨.code 0, s', Option.map_eq_some_iff.mpr ⟨_, hop, rfl⟩, h', ?_⟩
    rw [htree]
    exact .create rfl hfree hf
  | unlink path =>
    obtain ⟨s', hop, h', hdoes, -⟩ := h.removes hn hask.1 hask.2.1 hask.2.2
    exact ⟨.code 0, s', Option.map_eq_some_iff.mpr ⟨_, hop, rfl⟩, h', hdoes⟩
  | rmdir path =>
    obtain ⟨s', hop, h', -, hdoes⟩ := h.removes hn hask.1 hask.2.1 hask.2.2
    exact ⟨.code 0, s', Option.map_eq_some_iff.mpr ⟨_, hop, rfl⟩, h', hdoes⟩
  | opn path =>
    obtain ⟨x, hx⟩ := Option.ne_none_iff_exists'.mp hask.2
    obtain ⟨s', hop, hcons⟩ := h.opn hask.1 hx
    exact hsame (Option.map_eq_some_iff.mpr ⟨_, hop, rfl⟩) (.opn hx) (h.consulted hcons)
  | opendir path =>
    obtain ⟨x, hx⟩ := Option.ne_none_iff_exists'.mp hask.2
    obtain ⟨s', hop, hcons⟩ := h.opn hask.1 hx
    exact hsame (Option.map_eq_some_iff.mpr ⟨_, hop, rfl⟩) (.opendir hx) (h.consulted hcons)
  | read buf size offset fh =>
    obtain ⟨hsize, ns, x, c, hx, rfl, hfile, hoff⟩ := hask
    obtain ⟨s', hop, hcons⟩ := h.read hx hfile hsize hoff buf
    exact hsame (Option.map_eq_some_iff.mpr ⟨_, hop, rfl⟩) (.read hx rfl hfile hoff) (h.consulted hcons)
  | write path data size offset fh =>
    obtain ⟨hhead, x, c, hx, hfile, hfh, hoff⟩ := hask
    obtain ⟨t, hfid, -⟩ := h.writeFid hhead (treeOf_walk h hx) hfh
    obtain ⟨s', hop, h', htree⟩ := h.write_tree hn hhead hx hfile hfh hroom hoff
    refine ⟨.handle size x.id, s', ?_, h', by rw [htree]; exact .write hx hfile hfh hoff⟩
    exact Option.bind_eq_some_iff.mpr ⟨_, hfid, Option.bind_eq_some_iff.mpr ⟨_, hop, rfl⟩⟩
  | utimens path => exact hsame rfl .utimens ⟨h, rfl⟩
  | chown path u g => exact hsame rfl .chown ⟨h, rfl⟩
  | truncate path offset => exact hsame rfl .truncate ⟨h, rfl⟩
  | flush path fh => exact hsame rfl .flush ⟨h, rfl⟩
  | releasedir fh => exact hsame rfl .releasedir (h.release fh)
  | release fh => exact hsame rfl .release (h.release fh)

end Call

/-! ### Runs -/

/-- Every call of a run makes sense for the tree it finds, nothing runs out, and the caches hold nothing of
the last file with an identifier or a path. -/
def Served (a : Args) : List Call → St → Prop
  | [], _ => True
  | c :: cs, s => (∀ h : TreeOk a s, Sensible (treeOf h) c) ∧ RoomFor a s c ∧ FreshFor a s c ∧
      ∀ r t, c.run a s = some (r, t) → Served a cs t

/-- The tree of a volume without files. -/
def noFiles : FsTree := FileTree.single rootNode rootNode_body

theorem find_noFiles {ns : List (List UInt8)} (h : ns ≠ []) : noFiles.find ns = none := if_neg h

theorem Formatted.treeOf_eq {a : Args} {s : St} (h : Formatted a s) : treeOf h.treeOk = noFiles :=
  h.treeOk.once.tree_single h.treeOk.distinct rfl rfl h.dirOf_root

section Run
variable {a : Args}

theorem replies_nil (a : Args) (s : St) : replies a [] s = some ([], s) := rfl

theorem replies_cons {s t u : St} {c : Call} {cs : List Call} {r : Reply} {rs : List Reply}
    (h : c.run a s = some (r, t)) (h' : replies a cs t = some (rs, u)) :
    replies a (c :: cs) s = some (r :: rs, u) :=
  Option.bind_eq_some_iff.mpr ⟨_, h, Option.bind_eq_some_iff.mpr ⟨_, h', rfl⟩⟩

/-- **A run does to the tree what its calls are for.** The induction is on the calls. -/
theorem TreeOk.calls (hn : Numbered a) : ∀ (cs : List Call) {s : St} (h : TreeOk a s), Served a cs s →
    ∃ rs s', replies a cs s = some (rs, s') ∧ ∃ h' : TreeOk a s', DoesAll a (treeOf h) cs rs (treeOf h')
  | [], s, h, _ => ⟨[], s, rfl, h, .nil⟩
  | c :: cs, s, h, hok => by
    obtain ⟨hask, hroom, hfresh, hrest⟩ := hok
    obtain ⟨r, t, hrun, ht, hdo⟩ := h.call hn c (hask h) hroom hfresh
    obtain ⟨rs, s', hruns, h', hall⟩ := TreeOk.calls hn cs ht (hrest r t hrun)
    exact ⟨r :: rs, s', replies_cons hrun hruns, h', .cons hdo hall⟩

end Run

/-- **On a formatted volume the driver serves a tree of files**: it answers call after call what is answered
on the tree that begins with nothing but its root. -/
theorem serves_tree {a : Args} {s : St} (hfresh : Formatted a s) (hn : Numbered a) {cs : List Call}
    (hcs : Served a cs s) : ∃ rs s', replies a cs s = some (rs, s') ∧
      ∃ h' : TreeOk a s', DoesAll a noFiles cs rs (treeOf h') := by
  rw [← hfresh.treeOf_eq]
  exact hfresh.treeOk.calls hn cs hcs

/-! ### Samples -/

section Samples
variable {a : Args} {s : St}

theorem freePlace_noFiles {name : List UInt8} (hne : name ≠ []) (hslash : (47 : UInt8) ∉ name)
    (hnul : (0 : UInt8) ∉ name) : FreePlace noFiles rootPath name :=
  ⟨rfl, hne, hslash, hnul, ⟨rootNode, rfl, rfl⟩, find_noFiles (List.concat_ne_nil _ _)⟩

theorem components_first : components (rootName 97) = [[97]] := components_single (by decide) (by decide)

/-- **The first directory of a formatted volume.** -/
theorem Formatted.mkdir_call (h : Formatted a s) (hn : Numbered a) (hclu : 2 ≤ a.cluCnt)
    (htbl : 2 ≤ a.fsHead.tblCnt.toNat) :
    Sensible noFiles (.mkdir 0 (rootName 97) 0) ∧ RoomFor a s (.mkdir 0 (rootName 97) 0) ∧
      FreshFor a s (.mkdir 0 (rootName 97) 0) ∧
      ∃ s', Call.run a s (.mkdir 0 (rootName 97) 0) = some (.code 0, s') ∧ ∃ h' : TreeOk a s',
        (treeOf h').find [[97]] ≠ none ∧ ∀ n, (treeOf h').find [[97], n] = none := by
  have hfree : FreePlace noFiles rootPath [97] :=
    freePlace_noFiles (List.cons_ne_nil _ _) (by decide) (by decide)
  have hok : MakeOk a s (joinPath rootPath [97]) := h.makeOk hclu htbl (by decide)
  have hfresh : FreshIn a s (joinPath rootPath [97]) :=
    ⟨h.forgotten htbl, fun st hst => by rw [h.ids] at hst; cases hst⟩
  have hnew : NewName a s rootPath [97] 0 := h.newName (List.cons_ne_nil _ _) (by decide) (by decide)
  obtain ⟨s', hop, h', hd, hnone, hi, htree⟩ :=
    h.treeOk.make_tree hn hnew (by decide) hok hfresh (Or.inr ⟨rfl, rfl⟩)
  refine ⟨⟨rootPath, [97], rfl, hfree, by decide⟩, hok, hfresh, s', Option.map_eq_some_iff.mpr ⟨_, hop, rfl⟩,
    h', ?_, fun n => ?_⟩
  · have heq : [[97]] = components rootPath ++ [[97]] := rfl
    rw [htree, FileTree.insert_find, if_pos heq]
    exact Option.some_ne_none _
  · have hne : [[97], n] ≠ components rootPath ++ [[97]] := fun heq => by
      have hlen := congrArg List.length heq
      cases hlen
    rw [htree, FileTree.insert_find, if_neg hne, h.treeOf_eq]
    exact find_noFiles (List.cons_ne_nil _ _)

/-- A directory is made and removed. -/
def makeAndRemove : List Call := [.mkdir 0 (rootName 97) 0, .rmdir (rootName 97)]

theorem Formatted.served (h : Formatted a s) (hn : Numbered a) (hclu : 2 ≤ a.cluCnt)
    (htbl : 2 ≤ a.fsHead.tblCnt.toNat) : Served a makeAndRemove s := by
  obtain ⟨hask, hroom, hfresh, s', hrun, h', hthere, hempty⟩ := h.mkdir_call hn hclu htbl
  refine ⟨fun _ => h.treeOf_eq ▸ hask, hroom, hfresh, fun r t hrun' => ?_⟩
  obtain ⟨-, rfl⟩ := Prod.mk.inj (Option.some.inj (hrun.symm.trans hrun'))
  refine ⟨fun _ => ⟨rfl, ?_, Or.inr fun n => ?_⟩, trivial, trivial, fun _ _ _ => trivial⟩
  · rw [components_first]
    exact hthere
  · rw [components_first]
    exact hempty n

end Samples

/-- On a volume of seven clusters. -/
theorem serves_tree_seven : ∃ rs s', replies sevenArgs makeAndRemove sevenFresh = some (rs, s') ∧
    ∃ h' : TreeOk sevenArgs s', DoesAll sevenArgs noFiles makeAndRemove rs (treeOf h') :=
  serves_tree formatted_sevenFresh numbered_seven
    (formatted_sevenFresh.served numbered_seven (by decide) (by decide))

/-! ### Without removals -/

/-- The call removes a file. -/
def Removes : Call → Prop
  | .unlink _ => True
  | .rmdir _ => True
  | _ => False

/-- **The caches hold nothing of files that are not there**: every path in the stat cache leads to its file,
and nothing is cached of an identifier that is no file's. -/
structure Clear (a : Args) (s : St) : Prop where
  stat : StatOk a s
  unused : Unused s

section Clear
variable {a : Args} {s t s' : St} {D path : Path} {name : List UInt8} {p r fh : ℤ} {now : UInt64}
  {mode : UInt32} {data : Buf} {size offset : ℕ}

theorem Formatted.clear (h : Formatted a s) : Clear a s := ⟨h.statOk, h.steady.unused⟩

theorem Clear.consulted (hc : Clear a s) (hcons : Consulted a s t) : Clear a t := by
  refine ⟨fun q st hhead hst => ?_, hc.unused.of_looked hcons.looked⟩
  unfold Leads
  rw [hcons.looked.dev]
  exact (hcons.known q st hst).elim (hc.stat q st hhead) id

theorem Clear.freshIn (hc : Clear a s) (hn : Numbered a) (hnew : NewName a s D name p) (h : TreeOk a s)
    (hok : MakeOk a s (joinPath D name)) : FreshIn a s (joinPath D name) := by
  obtain ⟨hft, hdead⟩ := devFreeFid_free hn hok.fid
  refine ⟨hc.unused.forgotten hok.fid hft hdead _, fun st hst => ?_⟩
  have hleads := hc.stat _ st (head_join hnew.head) hst
  unfold Leads at hleads
  rw [components_join hnew.head hnew.slash hnew.ne] at hleads
  obtain ⟨k, hk, e, he, hname, -⟩ := walk_snoc.mp hleads
  obtain rfl := Walk.unique h.distinct hk.walk hnew.dir.walk
  exact absurd (hname ▸ List.mem_map_of_mem he) hnew.new

/-- **Making a file** leaves them clear: its identifier is a file's from then on. -/
theorem Clear.make (hc : Clear a s) (h : TreeOk a s) (hn : Numbered a) (hnew : NewName a s D name p)
    (hlen : name.length < 32) (hok : MakeOk a s (joinPath D name)) {out : Option (ℤ × St)}
    (hout : out = opsCreate a now s (joinPath D name) mode ∨ out = opsMkdir a now s (joinPath D name) mode)
    (hop : out = some (r, s')) : Clear a s' := by
  obtain ⟨hforget, -⟩ := hc.freshIn hn hnew h hok
  obtain ⟨t, hpar, htr⟩ := h.pfid hnew
  have hlook := htr.looked
  have ht := hc.consulted htr.consulted
  obtain ⟨-, p', t', name', m, r₁, u, r₂, hpar', hbase, hcr, hi⟩ := opsMake_steps hout hop
  obtain ⟨rfl, rfl⟩ := Prod.mk.inj (Option.some.inj (hpar.symm.trans hpar'))
  obtain rfl := Option.some.inj ((baseName_join D hnew.slash).symm.trans hbase)
  have hmade := h.vol.made_of hn hok hforget hpar hlen hcr hi
  have hent := hok.entered hn hlook hmade (hok.volOk hn h.vol hforget hpar hmade)
  refine ⟨fun q st hhead hst => ?_, fun g hg0 hgt hgdead => ?_⟩
  · rw [hent.ids] at hst
    exact hent.leads (h.tree.of_looked hlook) (ht.stat q st hhead hst)
  · have hgf : g ≠ devFreeFid a s.fsTable := by
      rintro rfl
      exact hgdead hent.self
    have hgold : ¬ Live t.fsTable g := fun hl => hgdead (hent.live g hl)
    have hgp : g ≠ p := by
      rintro rfl
      exact (h.tree.live hnew.dir).elim (fun hz => by omega) fun hl => hgold (by rw [hlook.table]; exact hl)
    obtain ⟨hseq, hne⟩ := ht.unused g hg0 hgt hgold
    obtain ⟨-, hseqs, hclrs⟩ := caches_make hcr hi
    refine ⟨(hseqs g hgp hgf).trans hseq, ?_⟩
    rcases hclrs with heq | heq | heq
    · rw [heq]
      exact hne
    · rw [heq]
      exact Ne.symm hgp
    · rw [heq]
      exact Ne.symm hgf

/-- **A write** caches nothing but its file. -/
theorem Clear.write (hc : Clear a s) (h : TreeOk a s) (hn : Numbered a) (hhead : path.head? = some 47)
    {x : FsNode} {c : List UInt8} (hx : (treeOf h).find (components path) = some x) (hfile : x.body = some c)
    (hfh : fh = 0 ∨ fh = x.id) (hok : WriteOk a s path size offset fh)
    (hoff : offset ≤ c.length) (hop : opsWrite a s path data size offset fh = some (r, s')) : Clear a s' := by
  obtain ⟨t, hfid, hcons⟩ := h.target hhead hx hfh
  obtain ⟨ht, heq⟩ := h.consulted hcons
  have hct := hc.consulted hcons
  obtain ⟨hf, hfits⟩ := hok.file x.id t hfid
  rw [← hcons.looked.table] at hf
  obtain ⟨v, hw, -, hwritten, -⟩ := ht.vol.write hn.clus hf hfid data hok.int hfits
  obtain ⟨-, rfl⟩ := Prod.mk.inj (Option.some.inj (hop.symm.trans hw))
  obtain ⟨w, hw', h', htree⟩ : ∃ w, opsWrite a s path data size offset fh = some ((size : ℤ), w) ∧
      ∃ h' : TreeOk a w, treeOf h' = (treeOf h).write (components path) (overwrite c data size offset) :=
    h.write_tree hn hhead hx hfile hfh hok hoff
  obtain ⟨-, rfl⟩ := Prod.mk.inj (Option.some.inj (hw.symm.trans hw'))
  have hon := hwritten.onFile
  have hsame : ∀ {ns y}, (treeOf h).find ns = some y → ∃ z, (treeOf h').find ns = some z ∧ z.id = y.id :=
    fun hy => by
      rw [htree]
      exact FileTree.write_id hy
  refine ⟨fun q st hq hst => ?_, fun g hg0 hgt hgdead => ?_⟩
  · rw [hon.ids] at hst
    obtain ⟨y, hy, hid⟩ := walk_treeOf ht (hct.stat q st hq hst)
    obtain ⟨z, hz, hid'⟩ := hsame (heq ▸ hy)
    have hwalk := treeOf_walk h' hz
    rwa [hid', hid] at hwalk
  · have hgf : g ≠ x.id := by
      rintro rfl
      obtain ⟨-, hx0, -⟩ := h.file_live hx hfile
      obtain ⟨z, hz, hid⟩ := hsame hx
      rcases h'.live_id hz with ⟨-, rfl⟩ | ⟨-, hlive⟩
      · exact hx0 hid.symm
      · exact hgdead (hid ▸ hlive)
    have hgold : ¬ Live t.fsTable g := fun hl => hgdead ((live_congr (hon.others g hgf)).mpr hl)
    obtain ⟨hseq, hne⟩ := hct.unused g hg0 hgt hgold
    refine ⟨(hon.seqs g hgf).trans hseq, ?_⟩
    rcases hon.clrs with heq' | heq'
    · rw [heq']
      exact hne
    · rw [heq']
      exact Ne.symm hgf

/-- **Every call but a removal** leaves them clear. -/
theorem Clear.call (hc : Clear a s) (h : TreeOk a s) (hn : Numbered a) {c : Call} (hno : ¬ Removes c)
    (hask : Sensible (treeOf h) c) (hroom : RoomFor a s c) {rep : Reply} (hrun : c.run a s = some (rep, s')) :
    Clear a s' := by
  have hlook : ∀ {R : Type} {out : Option R} {v : R} {k : R → Reply × St}, out = some v →
      out.map k = some (rep, s') → Consulted a s (k v).2 → Clear a s' := by
    rintro R out v k rfl hmap hcons
    obtain rfl : (k v).2 = s' := congrArg Prod.snd (Option.some.inj hmap)
    exact hc.consulted hcons
  have hrel : ∀ fh, Clear a (cacheSeqRm s fh) := fun fh => by
    refine ⟨hc.stat, fun g hg0 hgt hgdead => ?_⟩
    obtain ⟨hseq, hne⟩ := hc.unused g hg0 hgt hgdead
    refine ⟨?_, hne⟩
    by_cases hg : g = fh
    · rw [hg]
      exact Function.update_self _ _ _
    · exact (Function.update_of_ne hg _ _).trans hseq
  cases c with
  | getattr now path =>
    rcases hask with ⟨hhead, hx⟩ | ⟨D, name, rfl, hfree⟩
    · obtain ⟨x, hx⟩ := Option.ne_none_iff_exists'.mp hx
      obtain ⟨size, t, hop, -, hcons⟩ := h.getattr hhead hx now
      exact hlook hop hrun hcons
    · obtain ⟨st, t, hop, hcons⟩ :=
        h.getattr_missing hfree.head hfree.dir hfree.slash hfree.ne hfree.free now
      exact hlook hop hrun hcons
  | readdir path =>
    obtain ⟨hhead, x, hx, hbody⟩ := hask
    obtain ⟨names, t, hop, -, -, hcons⟩ := h.readdir hhead hx hbody
    exact hlook hop hrun hcons
  | mkdir now path mode =>
    obtain ⟨D, name, rfl, hfree, hlen⟩ := hask
    obtain ⟨p, hnew⟩ := hfree.newName
    obtain ⟨⟨r, t⟩, hop, heq⟩ := Option.map_eq_some_iff.mp hrun
    obtain ⟨-, rfl⟩ := Prod.mk.inj heq
    exact hc.make h hn hnew hlen hroom (Or.inr rfl) hop
  | create now path mode =>
    obtain ⟨D, name, rfl, hfree, hlen⟩ := hask
    obtain ⟨p, hnew⟩ := hfree.newName
    obtain ⟨⟨r, t⟩, hop, heq⟩ := Option.map_eq_some_iff.mp hrun
    obtain ⟨-, rfl⟩ := Prod.mk.inj heq
    exact hc.make h hn hnew hlen hroom (Or.inl rfl) hop
  | unlink path => exact absurd trivial hno
  | rmdir path => exact absurd trivial hno
  | opn path =>
    obtain ⟨x, hx⟩ := Option.ne_none_iff_exists'.mp hask.2
    obtain ⟨t, hop, hcons⟩ := h.opn hask.1 hx
    exact hlook hop hrun hcons
  | opendir path =>
    obtain ⟨x, hx⟩ := Option.ne_none_iff_exists'.mp hask.2
    obtain ⟨t, hop, hcons⟩ : ∃ t, opsOpendir a s path = some (0, x.id, t) ∧ Consulted a s t :=
      h.opn hask.1 hx
    exact hlook hop hrun hcons
  | read buf size offset fh =>
    obtain ⟨hsize, ns, x, c, hx, rfl, hfile, hoff⟩ := hask
    obtain ⟨t, hop, hcons⟩ := h.read hx hfile hsize hoff buf
    exact hlook hop hrun hcons
  | write path data size offset fh =>
    obtain ⟨hhead, x, c, hx, hfile, hfh, hoff⟩ := hask
    obtain ⟨⟨f, t⟩, -, hrun⟩ := Option.bind_eq_some_iff.mp hrun
    obtain ⟨⟨r, v⟩, hop, hrun⟩ := Option.bind_eq_some_iff.mp hrun
    obtain ⟨-, rfl⟩ := Prod.mk.inj (Option.some.inj hrun)
    exact hc.write h hn hhead hx hfile hfh hroom hoff hop
  | utimens path => exact (Prod.mk.inj (Option.some.inj hrun)).2 ▸ hc
  | chown path u g => exact (Prod.mk.inj (Option.some.inj hrun)).2 ▸ hc
  | truncate path offset => exact (Prod.mk.inj (Option.some.inj hrun)).2 ▸ hc
  | flush path fh => exact (Prod.mk.inj (Option.some.inj hrun)).2 ▸ hc
  | releasedir fh => exact (Prod.mk.inj (Option.some.inj hrun)).2 ▸ hrel fh
  | release fh => exact (Prod.mk.inj (Option.some.inj hrun)).2 ▸ hrel fh

theorem Clear.freshFor (hc : Clear a s) (h : TreeOk a s) (hn : Numbered a) {c : Call}
    (hask : Sensible (treeOf h) c) (hroom : RoomFor a s c) : FreshFor a s c := by
  cases c with
  | mkdir now path mode =>
    obtain ⟨D, name, rfl, hfree, -⟩ := hask
    obtain ⟨p, hnew⟩ := hfree.newName
    exact hc.freshIn hn hnew h hroom
  | create now path mode =>
    obtain ⟨D, name, rfl, hfree, -⟩ := hask
    obtain ⟨p, hnew⟩ := hfree.newName
    exact hc.freshIn hn hnew h hroom
  | _ => trivial

end Clear

/-- Every call of a run makes sense for the tree it finds, nothing runs out, and nothing is removed. -/
def ServedKept (a : Args) : List Call → St → Prop
  | [], _ => True
  | c :: cs, s => ¬ Removes c ∧ (∀ h : TreeOk a s, Sensible (treeOf h) c) ∧ RoomFor a s c ∧
      ∀ r t, c.run a s = some (r, t) → ServedKept a cs t

/-- Nothing has to be asked of the caches then. The induction is on the calls. -/
theorem ServedKept.served {a : Args} (hn : Numbered a) : ∀ (cs : List Call) {s : St}, TreeOk a s → Clear a s →
    ServedKept a cs s → Served a cs s
  | [], _, _, _, _ => trivial
  | c :: cs, s, h, hc, hok => by
    obtain ⟨hno, hask, hroom, hrest⟩ := hok
    have hfresh := hc.freshFor h hn (hask h) hroom
    refine ⟨hask, hroom, hfresh, fun r t hrun => ?_⟩
    obtain ⟨r', t', hrun', ht, -⟩ := h.call hn c (hask h) hroom hfresh
    obtain ⟨rfl, rfl⟩ := Prod.mk.inj (Option.some.inj (hrun.symm.trans hrun'))
    exact ServedKept.served hn cs ht (hc.call h hn hno (hask h) hroom hrun) (hrest r t hrun)

/-- **As long as nothing is removed**, whatever is cached by the calls: the driver serves a tree of files. -/
theorem serves_tree_kept {a : Args} {s : St} (hfresh : Formatted a s) (hn : Numbered a) {cs : List Call}
    (hcs : ServedKept a cs s) : ∃ rs s', replies a cs s = some (rs, s') ∧
      ∃ h' : TreeOk a s', DoesAll a noFiles cs rs (treeOf h') := by
  rw [← hfresh.treeOf_eq]
  exact hfresh.treeOk.calls hn cs (ServedKept.served hn cs hfresh.treeOk hfresh.clear hcs)

/-- A directory is made and read. -/
theorem serves_tree_kept_seven : ∃ rs s', replies sevenArgs
    [.mkdir 0 (rootName 97) 0, .getattr 0 (rootName 97)] sevenFresh = some (rs, s') ∧
      ∃ h' : TreeOk sevenArgs s',
        DoesAll sevenArgs noFiles [.mkdir 0 (rootName 97) 0, .getattr 0 (rootName 97)] rs (treeOf h') := by
  obtain ⟨hask, hroom, -, s', hrun, h', hthere, -⟩ :=
    formatted_sevenFresh.mkdir_call numbered_seven (by decide) (by decide)
  refine serves_tree_kept formatted_sevenFresh numbered_seven ⟨id, fun _ => ?_, hroom, fun r t hrun' => ?_⟩
  · exact formatted_sevenFresh.treeOf_eq ▸ hask
  · obtain ⟨-, rfl⟩ := Prod.mk.inj (Option.some.inj (hrun.symm.trans hrun'))
    refine ⟨id, fun _ => Or.inl ⟨rfl, ?_⟩, trivial, fun _ _ _ => trivial⟩
    rw [components_first]
    exact hthere

end Fcfs.Vol
