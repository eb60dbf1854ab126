import Fcfs.Vol.FsRun

/-! # An identifier given out again

`dev_rm_file` leaves the block list and the cluster list of the file in the caches, and `dev_free_fid`
gives out its identifier next. On a formatted volume a file is made in the root, written to and
removed, and another one is made (`recycled`): the new file has the identifier of the old one, and
what is cached of it is what was cached of the old one. -/

namespace Fcfs.Vol

open Lib.Bytes Lib.Paged

/-- A step of a run within bounds. -/
def WithinStep (a : Args) (s s' : St) : Prop := ∃ o : FsOp, o.Within a s ∧ o.run a s = some s'

/-- A path in the root, of one letter. -/
def rootName (x : UInt8) : Path := [47, x]

/-- The first file is made, written to through its handle, and removed. -/
def makeFirst : FsOp := .create 0 (rootName 97) 0
def writeFirst (data : Buf) (size : ℕ) : FsOp := .write (rootName 97) data size 0 1
def removeFirst : FsOp := .unlink (rootName 97)

/-- Another file is made. -/
def makeOther : FsOp := .create 0 (rootName 98) 0

/-- The entry of the file made there first. -/
def oldEntry : DirEntry := newEntry 0 1 [97] 0o100000

theorem nameStr_oldEntry : oldEntry.nameStr = [97] := by decide

theorem fidOf_oldEntry : fidOf oldEntry = 1 := by decide

/-! ### The root, and free blocks -/

section Root
variable {a : Args} {T : ℤ → Fin 7 → BlkEnt}

/-- The root has seven blocks. -/
theorem length_nodesAt_root (h : AllFree (T 0)) : (nodesAt a T 0).length = 7 := by
  have hlen := congrArg List.length (map_blkOf_nodesOf (T 0) 0 0)
  rw [List.length_map, List.length_map, ownBids_length_eq.mpr h] at hlen
  rw [nodesAt_root, hlen]

/-- A volume with nothing on it has seven free blocks for every cluster but the root's. -/
theorem length_freeBlks (h : ∀ c, AllFree (T c)) : (freeBlks a T).length = 7 * (a.cluCnt - 1) := by
  have hup : ∀ k, (freeUpTo T k).length = 7 * k := by
    intro k
    induction k with
    | zero => rfl
    | succ k ih =>
      have hown : (clusterBids T 0 (k + 1)).length = 7 := by
        unfold clusterBids
        rw [List.length_map, ownBids_length_eq.mpr (h _)]
      rw [freeUpTo_succ, List.length_append, ih, hown]
      omega
  exact hup _

theorem dirNeed_one (hL : 1024 ≤ a.lblkSz) : dirNeed a 1 = 1 := by
  have h1 : pages a.lblkSz 68 ≤ 1 := (pages_le_iff (by omega)).mpr (by omega)
  have h0 : ¬ pages a.lblkSz 68 ≤ 0 := fun h => by
    have := (pages_le_iff (by omega)).mp h
    omega
  unfold dirNeed
  rw [toBlkCnt_eq (by omega)]
  show ((pages a.lblkSz 68 : ℕ) : ℤ) = 1
  omega

end Root

theorem noGrowth_root {a : Args} {s : St} (hL : 1024 ≤ a.lblkSz) (hfree : AllFree (tab a s.dev 0))
    (hdir : dirOf a s.dev 0 = []) : NoGrowth a s 0 := by
  unfold NoGrowth
  rw [hdir, length_nodesAt_root hfree, List.length_nil, Nat.zero_add, dirNeed_one hL]
  decide

/-- **A file can be made in an empty root** with the first identifier, if a block is free. -/
theorem makeOk_root {a : Args} {s : St} {bs : List UInt8} (hm : Mounted a s.dev)
    (hbs : (47 : UInt8) ∉ bs) (hfid : devFreeFid a s.fsTable = 1)
    (hblk : freeBlks a (tab a s.dev) ≠ []) (hroot : s.mapFid rootPath = none)
    (hdir : dirOf a s.dev 0 = []) : MakeOk a s (47 :: bs) := by
  refine ⟨by rw [hfid]; decide, hblk, fun p t hpar => ?_⟩
  obtain ⟨rfl, rfl⟩ := Prod.mk.inj (Option.some.inj ((fcfsGetPfid_root hbs hroot).symm.trans hpar))
  refine ⟨Or.inl rfl, fun u hal => fits_of_le ?_⟩
  rw [hdir, length_nodesAt_root hal.agree.root, List.length_nil, Nat.zero_add,
    dirNeed_one hm.geo.le_lblkSz]
  decide

theorem firstFree_one {a : Args} {s : St} (h : (tab a s.dev 1 0).fid = 0) (hclu : 2 ≤ a.cluCnt) :
    firstFree a s = (1, 1) ∧ freeBlks a (tab a s.dev) ≠ [] := by
  obtain ⟨rest, hrest⟩ := freeBlks_one h hclu
  unfold firstFree
  rw [hrest]
  exact ⟨rfl, List.cons_ne_nil _ _⟩

/-! ### Made, written to, removed -/

/-- A volume on which the first file has been made. -/
structure FirstMade (a : Args) (s : St) : Prop where
  volOk : VolOk a s
  live : Live s.fsTable 1
  fileOk : FileOk a s 1 [1]
  nodes : nodesAt a (tab a s.dev) 1 = [⟨1, 1, 0⟩]
  rest : ∀ c, c ≠ 1 → AllFree (tab a s.dev c)
  free : 7 * (a.cluCnt - 1) = (freeBlks a (tab a s.dev)).length + 1
  dir : dirOf a s.dev 0 = [oldEntry]
  ids : ∀ p, s.mapFid p = none
  empty : fileSz a s.dev (nodesAt a (tab a s.dev) 1) = 0

section Steps
variable {a : Args} {s : St} (hn : Numbered a) (hclu : 2 ≤ a.cluCnt) (htbl : 2 ≤ a.fsHead.tblCnt.toNat)

include htbl in
theorem Formatted.freeFid (h : Formatted a s) : devFreeFid a s.fsTable = 1 :=
  devFreeFid_one (h.entrs 1 (by decide) (by decide)).lnk htbl

include htbl in
theorem Formatted.forgotten (h : Formatted a s) :
    Forgotten s (devFreeFid a s.fsTable) (firstFree a s) := by
  refine ⟨fun hf => ?_, fun l hl => ?_⟩
  · rw [h.fid, h.freeFid htbl] at hf
    cases hf
  · rw [h.seqs] at hl
    cases hl

include hclu htbl

theorem Formatted.makeOk (h : Formatted a s) {bs : List UInt8} (hbs : (47 : UInt8) ∉ bs) :
    MakeOk a s (47 :: bs) :=
  makeOk_root h.mounted hbs (h.freeFid htbl) (firstFree_one (h.allFree 1 0) hclu).2 (h.ids _) h.dirOf_root

include hn

/-- **The first file of a formatted volume.** -/
theorem Formatted.make (h : Formatted a s) : ∃ s', makeFirst.Within a s ∧ makeFirst.Forgets a s ∧
    makeFirst.run a s = some s' ∧ FirstMade a s' ∧
      ∀ c b, 1 ≤ c → (c, b) ≠ (1, 1) → data a s'.dev c b = data a s.dev c b := by
  have hv := h.volOk
  have hfid := h.freeFid htbl
  obtain ⟨rest, hrest⟩ := freeBlks_one (h.allFree 1 0) hclu
  obtain ⟨hfirst, -⟩ := firstFree_one (h.allFree 1 0) hclu
  have hok : MakeOk a s (rootName 97) := h.makeOk hclu htbl (by decide)
  have hforget := h.forgotten htbl
  have hpar : fcfsGetPfid a s (rootName 97) = some (0, s) :=
    fcfsGetPfid_root (by decide) (h.ids _)
  obtain ⟨s', hop, hmade⟩ := hv.create hn hok (hforget.first h.mounted hok.first_mem) hpar
    (baseName_root (by decide)) (by decide) 0 0
  have hvs := hok.volOk hn hv hforget hpar hmade
  have hclean := hforget
  rw [hfid, hfirst] at hmade hforget
  have hlen := length_freeBlks (a := a) h.allFree
  have hno := noGrowth_root h.mounted.geo.le_lblkSz (h.allFree 0) h.dirOf_root
  have htabs := hmade.tabs hno
  have htaken := freeBlks_taken (x := ⟨u32 1, 0⟩) hrest (by decide) htabs
  refine ⟨s', hok, hclean, Option.map_eq_some_iff.mpr ⟨_, hop, rfl⟩,
    ⟨hvs, hmade.live (by decide) (by decide), hmade.fileOk (by decide) hforget, hmade.newborn.nodes,
      fun c hc i => ?_, ?_, ?_, fun p => by rw [hmade.ids]; exact h.ids p,
      hmade.fileSz (by decide)⟩, fun c b hc hne => ?_⟩
  · rw [htabs, if_neg fun heq => hc (congrArg Prod.fst heq)]
    exact h.allFree c i
  · rw [htaken, ← hlen, hrest, List.length_cons]
  · rw [hmade.dir, h.dirOf_root]
    rfl
  · refine hmade.blks hno c b hne fun hin => ?_
    obtain ⟨x, hx, heq⟩ := List.mem_map.mp hin
    rw [nodesAt_root] at hx
    have hcid : x.cid = c := congrArg Prod.fst heq
    have h0 := (mem_nodesOf.mp hx).1
    omega

end Steps

section Steps
variable {a : Args} {s t s' : St} {need : ℤ}

/-- **It can grow** as long as a cluster stays free and its list can be stored. -/
theorem FirstMade.fits (h : FirstMade a s) (hclu : 3 ≤ a.cluCnt)
    (hspace : need ≤ 7 * (a.cluCnt - 2 : ℕ)) (hcap : need ≤ 12 + secCap a) : Fits a s 1 need := by
  intro cl hok hlt
  obtain rfl := hok.unique h.fileOk
  have hfree := h.free
  rw [h.nodes, List.length_singleton] at hlt ⊢
  obtain ⟨k, hk⟩ : ∃ k, a.cluCnt = k + 2 := ⟨a.cluCnt - 2, by omega⟩
  -- all but the last cluster
  have hup : freeBlks a (tab a s.dev) =
      freeUpTo (tab a s.dev) k ++ clusterBids (tab a s.dev) 0 (k + 1) := by
    unfold freeBlks
    rw [← freeUpTo_succ, show a.cluCnt - 1 = k + 1 by omega]
  have hlast : (clusterBids (tab a s.dev) 0 (k + 1)).length = 7 := by
    unfold clusterBids
    rw [List.length_map, ownBids_length_eq.mpr (h.rest _ (by omega))]
  have hlen := congrArg List.length hup
  rw [List.length_append, hlast] at hlen
  have hgrown := length_foldl_noteClr_le a
    ((nextBlks a s.dev (need - (1 : ℕ)).toNat).map BlkInfo.cid) [1]
  have hnext : (nextBlks a s.dev (need - (1 : ℕ)).toNat).length ≤ (need - (1 : ℕ)).toNat := by
    unfold nextBlks
    rw [List.length_map]
    exact List.length_take_le _ _
  rw [List.length_map, List.length_singleton] at hgrown
  refine ⟨by decide, ⟨by omega, fun _ _ => ⟨(k : ℤ) + 1, by omega, by omega, h.rest _ (by omega),
    fun b hb => ?_⟩⟩, ?_⟩
  · obtain ⟨q, hq, rfl⟩ := List.mem_map.mp hb
    rw [hup, List.take_append_of_le_length (by omega)] at hq
    obtain ⟨c, b⟩ := q
    obtain ⟨-, hck, -⟩ := mem_freeUpTo.mp (List.mem_of_mem_take hq)
    simp only [node0]
    omega
  · unfold grownClrs
    omega

theorem FirstMade.writeOk (h : FirstMade a s) {size offset : ℕ} (hint : offset + 4 + size < 2 ^ 31)
    (hfits : Fits a s 1 (writeNeed a size offset)) : WriteOk a s (rootName 97) size offset 1 := by
  have hfid : writeFid a s (rootName 97) 1 = some (1, s) := rfl
  refine ⟨hint, fun f t hft => ?_⟩
  obtain ⟨rfl, rfl⟩ := Prod.mk.inj (Option.some.inj (hfid.symm.trans hft))
  exact ⟨Or.inr h.live, hfits⟩

/-- **Writing to it.** -/
theorem FirstMade.write (h : FirstMade a s) (hn : Numbered a) (data : Buf) {size : ℕ}
    (hint : 0 + 4 + size < 2 ^ 31) (hfits : Fits a s 1 (writeNeed a size 0)) :
    ∃ s', (writeFirst data size).Within a s ∧ (writeFirst data size).run a s = some s' ∧ VolOk a s' ∧
      Written a 1 (writeNeed a size 0) s s' := by
  have hfid : writeFid a s (rootName 97) 1 = some (1, s) := rfl
  obtain ⟨s', hop, hv, hw, -⟩ := h.volOk.write hn.clus (Or.inr h.live) hfid data hint hfits
  exact ⟨s', h.writeOk hint hfits, Option.map_eq_some_iff.mpr ⟨_, hop, rfl⟩, hv, hw⟩

/-- What is left when it has been removed. -/
structure FirstGone (a : Args) (s s' : St) : Prop where
  volOk : VolOk a s'
  removed : ∃ t, Looked a s t ∧ t.mapSeq 0 ≠ none ∧ Removed a 1 0 t s'
  dir : dirOf a s'.dev 0 = []
  root : s'.mapFid rootPath = none

/-- **Removing the only file of the root**, with an empty stat cache. -/
theorem VolOk.removeFirst (hv : VolOk a s) (hn : Numbered a) (hlive : Live s.fsTable 1)
    (hdir : dirOf a s.dev 0 = [oldEntry]) (hids : ∀ p, s.mapFid p = none) :
    ∃ u, removeFirst.Within a s ∧ removeFirst.run a s = some u ∧ FirstGone a s u ∧
      ∃ t, fcfsGetFid a s (rootName 97) = some (1, t) := by
  have hfind : ((dirOf a s.dev 0).find? fun e => e.nameStr == [97]) = some oldEntry := by
    rw [hdir, List.find?_cons_of_pos (by rw [nameStr_oldEntry]; rfl)]
  obtain ⟨t, hget, hroot, hseq, -⟩ :=
    hv.fcfsGetFid_root (by decide) (by decide) (hids _) (hids _) hfind
  rw [fidOf_oldEntry] at hget
  have hlook := hv.getFid hget
  have hpar : fcfsGetPfid a t (rootName 97) = some (0, t) := fcfsGetPfid_root (by decide) hroot
  obtain ⟨u, hop, hvu, hrem⟩ := hv.remove hn hget hpar hlive (by decide) (Or.inl rfl) (by decide)
  refine ⟨u, fun f t' p v hf hp => ?_, Option.map_eq_some_iff.mpr ⟨_, hop, rfl⟩,
    ⟨hvu, ⟨t, hlook, hseq, hrem⟩, ?_, by rw [hrem.ids]; exact hroot⟩, t, hget⟩
  · obtain ⟨rfl, rfl⟩ := Prod.mk.inj (Option.some.inj (hget.symm.trans hf))
    obtain ⟨rfl, rfl⟩ := Prod.mk.inj (Option.some.inj (hpar.symm.trans hp))
    exact Or.inr ⟨hlive, Or.inl rfl, by decide⟩
  · rw [hrem.dir, hlook.dev, hdir]
    rfl

/-- **Removing it** when it has been written to. -/
theorem FirstMade.remove (h : FirstMade a s) (hn : Numbered a) (hv : VolOk a s')
    (hw : Written a 1 need s s') :
    ∃ u, removeFirst.Within a s' ∧ removeFirst.run a s' = some u ∧ FirstGone a s' u ∧
      ∃ t, fcfsGetFid a s' (rootName 97) = some (1, t) := by
  have hlive : Live s'.fsTable 1 := ⟨by decide, by decide, by rw [hw.lnk]; exact h.live.lnk⟩
  refine hv.removeFirst hn hlive ?_ fun p => (congrFun hw.onFile.ids p).trans (h.ids p)
  rw [← h.dir]
  unfold dirOf
  rw [nodesAt_other hw.onFile (by decide) (by decide) (by decide) (le_refl 0) (by decide),
    content_other hw.onFile (by decide) (by decide) (by decide) (le_refl 0) (by decide) h.fileOk.owned]

/-- The clusters of a file list seven blocks each. -/
theorem length_ownNodes_le (T : ℤ → Fin 7 → BlkEnt) (f : ℤ) (cl : List ℤ) :
    (ownNodes T f cl).length ≤ 7 * cl.length := by
  induction cl with
  | nil => exact le_refl 0
  | cons c cl ih =>
    have hone : (nodesOf (T c) f c).length ≤ 7 := by
      unfold nodesOf
      rw [List.length_map]
      exact (List.length_filter_le _ _).trans (by simp)
    show (nodesOf (T c) f c ++ ownNodes T f cl).length ≤ _
    rw [List.length_append, List.length_cons]
    omega

/-- **The identifier is given out again** with a list of `need` blocks cached of it. -/
structure Recycled (a : Args) (need : ℤ) (s : St) : Prop where
  mounted : Mounted a s.dev
  live : Live s.fsTable 1
  newborn : Newborn a 1 1 1 s
  seq : ∃ l, s.mapSeq 1 = some l ∧ (l.map blkOf).Nodup ∧ (∀ b ∈ l, 1 ≤ b.cid ∧ b.cid < a.cluCnt) ∧
    need ≤ l.length
  clrs : ∃ cl : List ℤ, Loaded s.clrsCache 1 cl ∧ need ≤ 7 * cl.length

/-- **Making another one.** -/
theorem FirstGone.make {u : St} (h : FirstMade a s) (hn : Numbered a) (hclu : 2 ≤ a.cluCnt)
    (htbl : 2 ≤ a.fsHead.tblCnt.toNat) (hw : Written a 1 need s s') (hu : FirstGone a s' u) :
    ∃ v, makeOther.Within a u ∧ makeOther.run a u = some v ∧ Recycled a need v := by
  have hvu := hu.volOk
  have hL : 1024 ≤ a.lblkSz := hvu.mounted.geo.le_lblkSz
  obtain ⟨t, hlook, hseq, hrem⟩ := hu.removed
  obtain ⟨l, hl, hlen⟩ := hw.seq
  obtain ⟨cl, -, hok, hpre⟩ := hw.ok
  have hokt := hlook.files 1 cl (Or.inr ⟨by decide, by decide, by rw [hw.lnk]; exact h.live.lnk⟩) hok
  -- the cache has the clusters of the old file
  obtain ⟨cl', hokt', hloaded⟩ := hrem.clrs (hrem.loaded hseq)
  obtain rfl := hokt'.unique hokt
  obtain ⟨rest, hrest⟩ := hpre [1] h.fileOk
  have hst := hok.stored (by decide)
  have hlist : l.Perm (nodesAt a (tab a s'.dev) 1) := hok.cached l hl
  -- and its first block is the first free one
  have hfid : devFreeFid a u.fsTable = 1 := by
    refine devFreeFid_one ?_ htbl
    rw [hrem.entry, hlook.table]
    show (s'.fsTable.entrs 1).lnkCnt - 1 = 0
    rw [hw.lnk, h.volOk.lnk 1 h.live (by decide)]
    rfl
  have hblk : (tab a u.dev 1 0).fid = 0 := by
    obtain ⟨-, i, hi, hfid', -⟩ := (mem_nodesAt (by decide)).mp
      (hw.kept (h.nodes ▸ List.mem_singleton_self (⟨1, 1, 0⟩ : BlkInfo)))
    obtain rfl : i = 0 := Fin.ext (by simp only at hi; omega)
    rw [hrem.tabs, hlook.dev]
    exact congrArg BlkEnt.fid (if_pos hfid')
  obtain ⟨hfirst, hne⟩ := firstFree_one hblk hclu
  have hok' : MakeOk a u (rootName 98) :=
    makeOk_root hvu.mounted (by decide) hfid hne hu.root hu.dir
  have hpar : fcfsGetPfid a u (rootName 98) = some (0, u) := fcfsGetPfid_root (by decide) hu.root
  have hat : clrsAt a u.clrsCache 0 = (firstFree a u).1 := by
    rw [hfirst, clrsAt_eq hloaded (hst.small hvu.mounted.cluCnt_lt) (by rw [← hrest]; simp)
      (by unfold s1Len; omega), ← hrest]
    rfl
  obtain ⟨v, hop, hmade⟩ := hvu.create hn hok' (fun _ => hat) hpar (baseName_root (by decide))
    (by decide) 0 0
  have hno := noGrowth_root hL hvu.agree.root hu.dir
  rw [hfid, hfirst] at hmade
  refine ⟨v, hok', Option.map_eq_some_iff.mpr ⟨_, hop, rfl⟩, hmade.but.mounted,
    hmade.live (by decide) (by decide), hmade.newborn, ⟨l, ?_, ?_, fun b hb => ?_, hlen⟩, cl', ?_, ?_⟩
  · rw [hmade.seq, hrem.seq]
    exact hlook.kept 1 l hl
  · exact (hlist.map blkOf).nodup_iff.mpr (nodup_nodesAt _ _ _)
  · exact ((mem_nodesAt (by decide)).mp (hlist.mem_iff.mp hb)).1
  · rw [hmade.same (hrem.loaded hseq) hrem.cached hno]
    exact hloaded
  · have hle := length_ownNodes_le (tab a s'.dev) 1 cl'
    rw [hok.nodes.length_eq, ← hlist.length_eq] at hle
    omega

end Steps

theorem numbered_seven : Numbered sevenArgs := ⟨by decide, by decide⟩

/-- **A formatted volume reaches a state where an identifier has been given out again.** -/
theorem Formatted.recycled {a : Args} {s : St} (h : Formatted a s) (hn : Numbered a)
    (hclu : 3 ≤ a.cluCnt) (htbl : 2 ≤ a.fsHead.tblCnt.toNat) {size : ℕ} (hint : 0 + 4 + size < 2 ^ 31)
    (hspace : writeNeed a size 0 ≤ 7 * (a.cluCnt - 2 : ℕ)) (hcap : writeNeed a size 0 ≤ 12 + secCap a) :
    ∃ s', Relation.ReflTransGen (WithinStep a) s s' ∧ Recycled a (writeNeed a size 0) s' := by
  obtain ⟨t, hmake, -, hopt, hfirst, -⟩ := h.make hn (by omega) htbl
  obtain ⟨u, hwrite, hopu, hvu, hwritten⟩ := hfirst.write hn (fun _ => 0) hint (hfirst.fits hclu hspace hcap)
  obtain ⟨v, hremove, hopv, hgone, -⟩ := hfirst.remove hn hvu hwritten
  obtain ⟨w, hagain, hopw, hrec⟩ := hgone.make hfirst hn (by omega) htbl hwritten
  exact ⟨w, (((Relation.ReflTransGen.single ⟨_, hmake, hopt⟩).tail ⟨_, hwrite, hopu⟩).tail
    ⟨_, hremove, hopv⟩).tail ⟨_, hagain, hopw⟩, hrec⟩

end Fcfs.Vol
