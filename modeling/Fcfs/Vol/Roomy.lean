import Fcfs.Vol.Allot
import Mathlib.Data.Int.LeastGreatest

/-! # Room for a tree

Whether there is room on a volume can be told from its tree alone. A file of the tree is allotted the blocks of
its bytes, and every directory the same number `w` of them (`allotted`). If the volume can afford that, and
nothing in the tree is too big for the driver's tables (`Roomy`), what makes the tree finds the room it needs:
an identifier, a first block, an entry in the directory and the blocks of what is written
(`TreeOk.makeOk`, `TreeOk.writeOk`), and the files keep to the allotments of the tree that results. -/

namespace Fcfs.Vol

open Lib.Bytes Lib.Walks Lib.Tree

/-! ### What a tree is allotted -/

/-- The blocks of what stands somewhere: those of a file's bytes behind the four of their number, and `w` for
every directory. -/
def blocksOf (a : Args) (w : ℕ) (x : FsNode) : ℕ :=
  match x.body with
  | some c => pages a.lblkSz (c.length + 4)
  | none => w

open Classical in
/-- **What the files of a tree are allotted**: their blocks, under their identifiers. -/
noncomputable def allotted (a : Args) (w : ℕ) (t : FsTree) (f : ℤ) : ℕ :=
  if h : ∃ x : FsNode, x.id = f ∧ ∃ ns, t.find ns = some x then blocksOf a w h.choose else 0

/-- **The volume has room for the tree**: the identifiers are numbers of the table, the entries of a directory
fit into its blocks, the sizes are numbers of the driver, the clusters of a file can be listed, and the blocks
can be afforded. -/
structure Roomy (a : Args) (w : ℕ) (t : FsTree) : Prop where
  ids : ∀ ns x, t.find ns = some x → x.id < a.fsHead.tblCnt.toNat
  names : ∀ ns, t.HasDir ns → (t.names ns).ncard * 64 + 4 ≤ (if ns = [] then 7 else w) * a.lblkSz
  bytes : ∀ ns x c, t.find ns = some x → x.body = some c → c.length + 4 < 2 ^ 31
  listed : ∀ ns x, ns ≠ [] → t.find ns = some x → blocksOf a w x ≤ 13 + secCap a
  room : Affords a (allotted a w t)

section Allotted
variable {a : Args} {w : ℕ} {t u : FsTree} {ns ms : List (List UInt8)} {n : List UInt8} {x y : FsNode} {f : ℤ}
  {c : List UInt8}

theorem allotted_find (hx : t.find ns = some x) : allotted a w t x.id = blocksOf a w x := by
  have h : ∃ y : FsNode, y.id = x.id ∧ ∃ ms, t.find ms = some y := ⟨x, rfl, ns, hx⟩
  obtain ⟨hid, ms, hy⟩ := h.choose_spec
  obtain rfl := t.inj ms ns _ x hy hx hid
  unfold allotted
  rw [dif_pos h, Option.some.inj (hy.symm.trans hx)]

theorem allotted_none (h : ∀ ns x, t.find ns = some x → x.id ≠ f) : allotted a w t f = 0 := by
  unfold allotted
  rw [dif_neg]
  rintro ⟨x, hid, ns, hx⟩
  exact h ns x hx hid

/-- Files that are there before and after are allotted the same. -/
theorem allotted_congr (h : ∀ x : FsNode, x.id = f → ((∃ ns, u.find ns = some x) ↔ ∃ ns, t.find ns = some x)) :
    allotted a w u f = allotted a w t f := by
  by_cases hx : ∃ x : FsNode, x.id = f ∧ ∃ ns, t.find ns = some x
  · obtain ⟨x, rfl, ns, hx⟩ := hx
    obtain ⟨ms, hu⟩ := (h x rfl).mpr ⟨ns, hx⟩
    rw [allotted_find hx, allotted_find hu]
  · rw [allotted_none fun ns x hf hid => hx ⟨x, hid, ns, hf⟩,
      allotted_none fun ns x hf hid => hx ⟨x, hid, (h x hid).mp ⟨ns, hf⟩⟩]

theorem allotted_insert {hd hn hi} (hf : f ≠ y.id) :
    allotted a w (t.insert ns n y hd hn hi) f = allotted a w t f := by
  refine allotted_congr fun x hid => ⟨?_, ?_⟩
  · rintro ⟨ms, hx⟩
    rw [FileTree.insert_find] at hx
    split_ifs at hx
    · obtain rfl := Option.some.inj hx
      exact absurd hid.symm hf
    · exact ⟨ms, hx⟩
  · rintro ⟨ms, hx⟩
    refine ⟨ms, ?_⟩
    rw [FileTree.insert_find, if_neg, hx]
    rintro rfl
    rw [hn] at hx
    cases hx

theorem allotted_erase {hl} (hy : t.find (ns ++ [n]) = some y) (hf : f ≠ y.id) :
    allotted a w (t.erase ns n hl) f = allotted a w t f := by
  refine allotted_congr fun x hid => ⟨?_, ?_⟩
  · rintro ⟨ms, hx⟩
    rw [FileTree.erase_find] at hx
    split_ifs at hx
    exact ⟨ms, hx⟩
  · rintro ⟨ms, hx⟩
    refine ⟨ms, ?_⟩
    rw [FileTree.erase_find, if_neg, hx]
    rintro rfl
    obtain rfl := Option.some.inj (hx.symm.trans hy)
    exact hf hid.symm

theorem allotted_write (hy : t.find ns = some y) (hf : f ≠ y.id) :
    allotted a w (t.write ns c) f = allotted a w t f := by
  refine allotted_congr fun x hid => ⟨?_, ?_⟩
  · rintro ⟨ms, hx⟩
    rw [FileTree.write_find] at hx
    split_ifs at hx with h
    · rw [hy] at hx
      obtain rfl := Option.some.inj hx
      exact absurd hid.symm hf
    · exact ⟨ms, hx⟩
  · rintro ⟨ms, hx⟩
    refine ⟨ms, ?_⟩
    rw [FileTree.write_find, if_neg, hx]
    rintro rfl
    obtain rfl := Option.some.inj (hx.symm.trans hy)
    exact hf hid.symm

/-- What is written to is allotted the blocks of what it holds then. -/
theorem allotted_write_self {c' : List UInt8} (hy : t.find ns = some y) (hfile : y.body = some c') :
    allotted a w (t.write ns c) y.id = pages a.lblkSz (c.length + 4) := by
  have hx : (t.write ns c).find ns = some { y with body := some c } := by
    rw [FileTree.write_find, if_pos rfl, hy, Option.map_some, hfile, Option.map_some]
  exact allotted_find hx

end Allotted

/-! ### Making a file -/

section Make
variable {a : Args} {w : ℕ} {s s' : St} {D : Path} {name : List UInt8} {f p : ℤ} {now : UInt64} {mode m : UInt32}

theorem VolOk.lblkSz_pos (hv : VolOk a s) : 0 < a.lblkSz := by
  have hL : 1024 ≤ a.lblkSz := hv.mounted.geo.le_lblkSz
  omega

theorem TreeOk.exists_unused (h : TreeOk a s) : ∃ f, IsLeast (unusedIds (treeOf h)) f := by
  have hmem : (tableLen : ℤ) ∈ unusedIds (treeOf h) := by
    refine ⟨by unfold tableLen; omega, fun ns x hx heq => ?_⟩
    rcases h.live_id hx with ⟨-, rfl⟩ | ⟨-, hlive⟩
    · unfold tableLen at heq
      cases heq
    · exact hlive.lt.ne heq
  obtain ⟨f, hf, hle⟩ := Int.exists_least_of_bdd ⟨0, fun k hk => hk.1.le⟩ ⟨_, hmem⟩
  exact ⟨f, hf, hle⟩

/-- If it is a number of the table, `dev_free_fid` finds it. -/
theorem TreeOk.freeFid_eq (h : TreeOk a s) (hn : Numbered a) (hf : IsLeast (unusedIds (treeOf h)) f)
    (hlt : f < a.fsHead.tblCnt.toNat) : devFreeFid a s.fsTable = f := by
  obtain ⟨hpos, hout⟩ := hf.1
  have hfids := hn.fids
  have hfree : 0 < devFreeFid a s.fsTable := by
    by_contra hneg
    have hlive : Live s.fsTable f := ⟨hpos.le, by omega, devFreeFid_none (not_lt.mp hneg) hpos hlt⟩
    obtain ⟨ns, x, hx, heq⟩ := h.placed hlive hpos.ne'
    exact hout ns x hx heq
  exact (h.isLeast_freeFid hn hfree).unique hf

theorem Roomy.blocks_new {u : FsTree} {ns : List (List UInt8)} (hu : Roomy a w u) (hL : 0 < a.lblkSz) (hns : ns ≠ [])
    (hx : u.find ns = some (newNode f now m)) : 1 ≤ blocksOf a w (newNode f now m) := by
  have hbody : (newNode f now m).body = none ∨ (newNode f now m).body = some [] := by
    unfold newNode
    split_ifs
    · exact Or.inl rfl
    · exact Or.inr rfl
  rw [Nat.one_le_iff_ne_zero]
  intro hzero
  unfold blocksOf at hzero
  rcases hbody with hdir | hfile
  · rw [hdir] at hzero
    obtain rfl : w = 0 := hzero
    have hnames := hu.names ns ⟨_, hx, hdir⟩
    rw [if_neg hns, Nat.zero_mul] at hnames
    omega
  · rw [hfile] at hzero
    have hfour := (pages_le_iff (n := 0 + 4) hL).mp (le_of_eq hzero)
    omega

/-- **There is room in the directory** for one more entry: the root has its seven blocks, another directory
what it is allotted. -/
structure DirRoom (a : Args) (s : St) (b : ℤ → ℕ) (p : ℤ) : Prop where
  root : p = 0 → dirNeed a ((dirOf a s.dev p).length + 1) ≤ 7
  need : p ≠ 0 → dirNeed a ((dirOf a s.dev p).length + 1) ≤ b p
  cap : p ≠ 0 → b p ≤ 13 + secCap a

section Put
variable (h : TreeOk a s) (hn : Numbered a) (hfree : FreePlace (treeOf h) D name)
  (hf : IsLeast (unusedIds (treeOf h)) f) {hi : ∀ ms y, (treeOf h).find ms = some y → y.id ≠ (newNode f now m).id}
  {u : FsTree} (hput : u = (treeOf h).insert (components D) name (newNode f now m) hfree.dir hfree.free hi)
  (hu : Roomy a w u)
include h hput hu

theorem Roomy.dirRoom (hnew : NewName a s D name p) : DirRoom a s (allotted a w u) p := by
  have hL := h.vol.lblkSz_pos
  obtain ⟨hset, hcard⟩ := h.names_eq hnew.dir
  obtain ⟨x, hx, hbody, hid⟩ := through_treeOf h hnew.dir
  have hxu : u.find (components D) = some x := by
    rw [hput, FileTree.insert_find, if_neg (by simp), hx]
  have hmore : (u.names (components D)).ncard = (dirOf a s.dev p).length + 1 := by
    have hout : name ∉ (treeOf h).names (components D) := fun hin => hin hfree.free
    have hfin : ((treeOf h).names (components D)).Finite := by
      rw [hset]
      exact Finset.finite_toSet _
    rw [hput, FileTree.insert_names, ← hcard]
    exact Set.ncard_insert_of_notMem hout hfin
  have hroot : components D = [] ↔ p = 0 := by
    have hr : (treeOf h).find [] = some rootNode := rfl
    constructor
    · intro hnil
      rw [hnil] at hx
      obtain rfl := Option.some.inj (hr.symm.trans hx)
      exact hid.symm
    · rintro rfl
      exact (treeOf h).inj _ [] x rootNode hx hr hid
  have hneed : dirNeed a ((dirOf a s.dev p).length + 1) = pages a.lblkSz (((dirOf a s.dev p).length + 1) * 64 + 4) :=
    toBlkCnt_eq hL _
  have hnames := hu.names (components D) ⟨x, hxu, hbody⟩
  have hallot := allotted_find (a := a) (w := w) hxu
  rw [hmore, ← pages_le_iff hL] at hnames
  rw [hid] at hallot
  refine ⟨fun hz => ?_, fun hz => ?_, fun hz => ?_⟩
  · rw [if_pos (hroot.mpr hz)] at hnames
    rw [hneed]
    exact Int.ofNat_le.mpr hnames
  · rw [if_neg fun hnil => hz (hroot.mp hnil)] at hnames
    unfold blocksOf at hallot
    rw [hbody] at hallot
    rw [hneed, hallot]
    exact Int.ofNat_le.mpr hnames
  · rw [hallot]
    exact hu.listed _ x (fun hnil => hz (hroot.mp hnil)) hxu

include hn hf

/-- The new file gets its identifier and a block, and the others keep what they are allotted. -/
theorem Roomy.made : devFreeFid a s.fsTable = f ∧ 1 ≤ allotted a w u f ∧
    ∀ g, g ≠ f → allotted a w u g = allotted a w (treeOf h) g := by
  have hx : u.find (components D ++ [name]) = some (newNode f now m) := by
    rw [hput, FileTree.insert_find, if_pos rfl]
  refine ⟨h.freeFid_eq hn hf (hu.ids _ _ hx), ?_, fun g hg => ?_⟩
  · rw [show f = (newNode f now m).id from rfl, allotted_find hx]
    exact hu.blocks_new h.vol.lblkSz_pos (by simp) hx
  · rw [hput]
    exact allotted_insert hg

variable (hk : KeepsTo a (allotted a w (treeOf h)) s)
include hk

/-- **A file can be made** if there is room for the tree with it. -/
theorem KeepsTo.makeOk : MakeOk a s (joinPath D name) := by
  obtain ⟨hfid, hself, hsame⟩ := hu.made h hn hfree hf hput
  obtain ⟨p, hnew⟩ := hfree.newName
  have hdir := hu.dirRoom h hfree hput hnew
  obtain ⟨hpos, -⟩ := hf.1
  have hpos' : 0 < devFreeFid a s.fsTable := by rwa [hfid]
  obtain ⟨hft, hdead⟩ := devFreeFid_free hn hpos'
  rw [hfid] at hft hdead
  have hle : ∀ g : ℤ, 1 ≤ g → g < tableLen → g ≠ f → allotted a w (treeOf h) g ≤ allotted a w u g :=
    fun g _ _ hg => (hsame g hg).ge
  have hblk := hk.free_ne h.vol hpos hft hdead hle hself hu.room
  obtain ⟨rest, hrest⟩ := firstFree_cons hblk
  have hin : firstFree a s ∈ freeBlks a (tab a s.dev) := by
    rw [hrest]
    exact List.mem_cons_self
  refine ⟨hpos', hblk, fun q t hpar => ?_⟩
  obtain ⟨t', hpar', -⟩ := h.pfid hnew
  obtain ⟨rfl, rfl⟩ := Prod.mk.inj (Option.some.inj (hpar'.symm.trans hpar))
  have hp := h.tree.live hnew.dir
  refine ⟨hp, ?_⟩
  rw [hfid]
  by_cases hz : p = 0
  · intro v hal
    refine fits_of_le ?_
    rw [hz, length_nodesAt_root hal.agree.root, ← hz]
    exact hdir.root hz
  · exact hk.roomIn h.vol hpos hft hdead hin (hp.resolve_left hz) hz hle hself (hdir.need hz) (hdir.cap hz) hu.room

/-- **The files keep to what they are allotted** when it is made. -/
theorem KeepsTo.make (hfresh : FreshIn a s (joinPath D name)) {out : Option (ℤ × St)} {r : ℤ}
    (hout : out = opsCreate a now s (joinPath D name) mode ∨ out = opsMkdir a now s (joinPath D name) mode)
    (hop : out = some (r, s')) : KeepsTo a (allotted a w u) s' := by
  obtain ⟨hfid, hself, hsame⟩ := hu.made h hn hfree hf hput
  have hok := hk.makeOk h hn hfree hf hput hu
  obtain ⟨p, hnew⟩ := hfree.newName
  have hdir := hu.dirRoom h hfree hput hnew
  obtain ⟨t, hpar, -⟩ := h.pfid hnew
  obtain ⟨-, p', t', name', m', r₁, v, r₂, hpar', -, hcr, hinit⟩ := opsMake_steps hout hop
  obtain ⟨rfl, rfl⟩ := Prod.mk.inj (Option.some.inj (hpar.symm.trans hpar'))
  subst hfid
  exact hk.made h.vol hn hok (hfresh.1.first h.vol.mounted hok.first_mem) hpar hcr hinit
    (fun g _ _ hg => (hsame g hg).ge) hself ((eq_or_ne p 0).imp_right hdir.need)

end Put

end Make

/-! ### Writing to a file -/

theorem length_overwrite {c : List UInt8} {data : Buf} {size offset : ℕ} (hoff : offset ≤ c.length) :
    (overwrite c data size offset).length = max c.length (offset + size) := by
  unfold overwrite
  rw [List.length_append, List.length_append, List.length_take, List.length_map, List.length_range, List.length_drop]
  omega

theorem pages_mono {L m n : ℕ} (hL : 0 < L) (h : m ≤ n) : pages L m ≤ pages L n :=
  (pages_le_iff hL).mpr (h.trans ((pages_le_iff hL).mp le_rfl))

section Write
variable {a : Args} {w : ℕ} {s s' : St} {path : Path} {data : Buf} {size offset : ℕ} {fh : ℤ} {x : FsNode}
  {c : List UInt8} (h : TreeOk a s) (hx : (treeOf h).find (components path) = some x) (hfile : x.body = some c)
  (hoff : offset ≤ c.length) {u : FsTree}
  (hput : u = (treeOf h).write (components path) (overwrite c data size offset)) (hu : Roomy a w u)
include h hx hfile hoff hput hu

/-- The file is allotted the blocks of what is written, and the others keep what they are allotted. -/
theorem Roomy.written : offset + 4 + size < 2 ^ 31 ∧ writeNeed a size offset ≤ allotted a w u x.id ∧
    allotted a w u x.id ≤ 13 + secCap a ∧ ∀ g, allotted a w (treeOf h) g ≤ allotted a w u g := by
  have hL := h.vol.lblkSz_pos
  obtain ⟨hne, -, -⟩ := h.file_live hx hfile
  have hlen : (overwrite c data size offset).length = max c.length (offset + size) := length_overwrite hoff
  have hfind : u.find (components path) = some { x with body := some (overwrite c data size offset) } := by
    rw [hput, FileTree.write_find, if_pos rfl, hx, Option.map_some, hfile, Option.map_some]
  have hself : allotted a w u x.id = pages a.lblkSz ((overwrite c data size offset).length + 4) := by
    rw [hput]
    exact allotted_write_self hx hfile
  have hbytes := hu.bytes _ _ _ hfind rfl
  have hint : offset + 4 + size < 2 ^ 31 := by omega
  refine ⟨hint, ?_, ?_, fun g => ?_⟩
  · rw [(writeNeed_eq h.vol.mounted hint).1, hself]
    exact Int.ofNat_le.mpr (pages_mono hL (by omega))
  · rw [hself]
    exact hu.listed _ _ hne hfind
  · by_cases hg : g = x.id
    · have hold := allotted_find (a := a) (w := w) hx
      unfold blocksOf at hold
      rw [hfile] at hold
      rw [hg, hself, hold]
      exact pages_mono hL (by omega)
    · rw [hput, allotted_write hx hg]

variable (hhead : path.head? = some 47) (hfh : fh = 0 ∨ fh = x.id) (hk : KeepsTo a (allotted a w (treeOf h)) s)
include hhead hfh hk

/-- **There is room for what is written** if there is for the tree with it. -/
theorem KeepsTo.writeOk : WriteOk a s path size offset fh := by
  obtain ⟨hint, hneed, hcap, hle⟩ := hu.written h hx hfile hoff hput
  obtain ⟨-, hx0, hlive⟩ := h.file_live hx hfile
  obtain ⟨t, hfid, ht, hlook⟩ := h.writeFid hhead (treeOf_walk h hx) hfh
  refine ⟨hint, fun f t' hfid' => ?_⟩
  obtain ⟨rfl, rfl⟩ := Prod.mk.inj (Option.some.inj (hfid.symm.trans hfid'))
  refine ⟨Or.inr hlive, ?_⟩
  rw [← hlook.table] at hlive
  exact (hk.of_looked hlook).fits ht.vol hlive hx0 (fun g _ _ => hle g) hneed hcap hu.room

/-- **The files keep to what they are allotted** when it is written. -/
theorem KeepsTo.write (hn : Numbered a) {r : ℤ} (hop : opsWrite a s path data size offset fh = some (r, s')) :
    KeepsTo a (allotted a w u) s' := by
  obtain ⟨hint, hneed, hcap, hle⟩ := hu.written h hx hfile hoff hput
  obtain ⟨-, hx0, hlive⟩ := h.file_live hx hfile
  obtain ⟨t, hfid, ht, hlook⟩ := h.writeFid hhead (treeOf_walk h hx) hfh
  have hkt := hk.of_looked hlook
  rw [← hlook.table] at hlive
  have hfits := hkt.fits ht.vol hlive hx0 (fun g _ _ => hle g) hneed hcap hu.room
  obtain ⟨cl, hnd, hok⟩ := ht.vol.files x.id (Or.inr hlive)
  obtain ⟨v, hop', -, hw, -⟩ := ht.vol.write hn.clus (Or.inr hlive) hfid data hint hfits
  obtain ⟨-, rfl⟩ := Prod.mk.inj (Option.some.inj (hop.symm.trans hop'))
  have hb := hok.broughtTo_write ht.vol.mounted ht.vol.agree hn.clus hnd hlive.nonneg hlive.lt hfid hint hfits hop
  exact hkt.written ht.vol hlive hx0 hok hw hb (fun g _ _ => hle g) hneed

end Write

/-! ### Removing a file -/

section Remove
variable {a : Args} {w : ℕ} {s s' : St} {path : Path} {r : ℤ}

/-- **The files keep to what they are allotted** when one is removed that has no second-level list. -/
theorem KeepsTo.remove (h : TreeOk a s) (hn : Numbered a) (hk : KeepsTo a (allotted a w (treeOf h)) s)
    (hhead : path.head? = some 47) (hx : (treeOf h).find (components path) ≠ none)
    (hleaf : path = rootPath ∨ ∀ n, (treeOf h).find (components path ++ [n]) = none)
    (hshort : ∀ x, (treeOf h).find (components path) = some x → x.id ≠ 0 → blocksOf a w x ≤ 13)
    (hop : opsUnlink a s path = some (r, s')) (h' : TreeOk a s') : KeepsTo a (allotted a w (treeOf h')) s' := by
  have hok := h.removeOk hhead hx
  obtain ⟨x, hx⟩ := Option.ne_none_iff_exists'.mp hx
  have hop₀ := hop
  obtain ⟨⟨f, t⟩, hfid, hop⟩ := Option.bind_eq_some_iff.mp hop
  obtain ⟨⟨p, u⟩, hpar, hop⟩ := Option.bind_eq_some_iff.mp hop
  obtain ⟨⟨r', v⟩, hrm, hop⟩ := Option.bind_eq_some_iff.mp hop
  obtain ⟨-, rfl⟩ := Prod.mk.inj (Option.some.inj hop)
  obtain ⟨t', hfid', -⟩ := fcfsGetFid_traced h.tree h.stat hhead (treeOf_walk h hx)
  obtain ⟨rfl, rfl⟩ := Prod.mk.inj (Option.some.inj (hfid'.symm.trans hfid))
  have hlookt := h.vol.getFid hfid
  have hlook := hlookt.trans ((hlookt.volOk h.vol).getPfid hpar)
  have hku := hk.of_looked hlook
  by_cases hx0 : x.id = 0
  · -- nothing is done to the root
    unfold devRmFile at hrm
    rw [if_pos hx0] at hrm
    obtain ⟨-, rfl⟩ := Prod.mk.inj (Option.some.inj hrm)
    rw [h.treeOf_congr h' hlook.dev]
    exact hku
  · have hroot : path ≠ rootPath := by
      rintro rfl
      obtain rfl := Option.some.inj hx
      exact hx0 rfl
    obtain ⟨s'', hop', h'', ns, n, hl, hcomp, htree⟩ :=
      h.remove_tree hn hhead hroot hx (hleaf.resolve_left hroot)
    obtain ⟨-, rfl⟩ := Prod.mk.inj (Option.some.inj (hop₀.symm.trans hop'))
    obtain ⟨hlive, hp, hne⟩ := (hok _ _ _ _ hfid hpar).resolve_left hx0
    rw [← hlook.table] at hlive hp
    have hfew := hshort x hx hx0
    rw [← allotted_find hx] at hfew
    rw [hcomp] at hx
    rw [htree]
    exact hku.removed (hlook.volOk h.vol) hn hlive hx0 hp hne hfew hrm fun g _ _ hg => (allotted_erase hx hg).ge

end Remove

end Fcfs.Vol
