import Fcfs.Vol.ClrSet
import Fcfs.Vol.Upkeep

/-! # Freeing a block

`dev_del_block` clears the entry of the block and brings the bitmap up to date (`devDelBlock_eq`).
When the file has no other block in the cluster, it also writes 0 over an element of the cached
cluster list, and every walk over the list ends at the first 0: what stands behind it is out of
reach until the list is loaded again. So the rest of the file is kept exactly when no block of it
stands there (`deletesOne_iff`). -/

namespace Fcfs.Vol

open Lib.Bytes

/-- The list of blocks, when it is rebuilt, has the blocks of the file and no others. -/
def Rebuilds (a : Args) (s : St) (f : ℤ) : Prop :=
  ∃ l, Rebuilt a s f l ∧ l.Perm (nodesAt a (tab a s.dev) f)

/-- The cluster list gives the cluster. -/
def ListsClr (a : Args) (s : St) (f c : ℤ) : Prop :=
  ∃ n, cntOf a s f = some n ∧ ∃ j : ℕ, (j : ℤ) < n ∧ clrOf a s f j = some c

/-- **One block of the file is freed and the rest kept**, in the tables, in the bitmap, in the list
of blocks under the cache as it is and under one that holds another file, and in the cluster list. -/
structure OneFreed (a : Args) (s s' : St) (f cid : ℤ) (i : Fin 7) : Prop where
  entry : tab a s'.dev cid i = ⟨0, 0⟩
  rest : ∀ c j, (c, j) ≠ (cid, i) → tab a s'.dev c j = tab a s.dev c j
  agree : Agree a s'.dev s'.fsBitmap
  now : Rebuilds a s' f
  evicted : ∀ c, c.fid ≠ f → Rebuilds a { s' with clrsCache := c } f
  listed : ∀ c : ℤ, 1 ≤ c → c < a.cluCnt → ownBids (tab a s'.dev c) f ≠ [] → ListsClr a s' f c

/-- `dev_del_block` frees block `i + 1` of the cluster and keeps the rest. -/
def DeletesOne (a : Args) (s : St) (f cid : ℤ) (i : Fin 7) : Prop :=
  ∃ r s', devDelBlock a s f cid (i.val + 1) = some (r, s') ∧ OneFreed a s s' f cid i

/-- **A file whose block list is rebuilt rightly.** -/
structure RightList (a : Args) (s : St) (f : ℤ) (cl : List ℤ) : Prop where
  stored : Stored a s.dev s.fsTable f cl
  cache : CacheOk s.clrsCache f cl
  nodes : (ownNodes (tab a s.dev) f cl).Perm (nodesAt a (tab a s.dev) f)

theorem FileOk.rightList {a : Args} {s : St} {f : ℤ} {cl : List ℤ} (h : FileOk a s f cl) (hf : f ≠ 0) :
    RightList a s f cl :=
  ⟨h.stored hf, h.cache, h.nodes⟩

/-- Every file of a consistent state is one, with the list that is stored. -/
theorem Consistent.rightList {a : Args} {s : St} (hm : Mounted a s.dev) (hc : Consistent a s) {f : ℤ}
    {cl : List ℤ} (hlive : Live s.fsTable f) (hf : f ≠ 0) (hst : Stored a s.dev s.fsTable f cl) :
    RightList a s f cl := by
  have hcache := hc.cacheOk hm hf hlive hst
  obtain ⟨l, t, ht⟩ := hc.rebuilt f (Or.inr hlive)
  obtain ⟨c, -, hop⟩ := devGetFileSeq_rebuild (s := cacheSeqRm s f) hm hf hst hcache
    (mapSeq_cacheSeqRm s f)
  have hnil : ownNodes (tab a s.dev) f cl ≠ [] := by
    intro hnil
    have hnone := hop.symm.trans ht
    rw [if_pos (by exact hnil)] at hnone
    cases hnone
  obtain ⟨rfl, -⟩ := Prod.mk.inj (Option.some.inj ((hop.trans (if_neg hnil)).symm.trans ht))
  have hperm := sortNodes_perm (ownNodes (tab a s.dev) f cl)
  have hseq : FileSeq a (tab a s.dev) f (sortNodes (ownNodes (tab a s.dev) f cl)) :=
    hc.files f hlive hf _ (Or.inr ⟨t, ht⟩)
  refine ⟨hst, hcache, hperm.symm.trans (hseq.perm_nodesAt hf fun b hb i hi => ?_)⟩
  obtain ⟨-, j, hj, -, hnum⟩ := mem_ownNodes.mp (hperm.mem_iff.mp hb)
  have hij : i = j := Fin.ext (by omega)
  rw [hij, hnum]

/-- **No block is out of reach**: another block of the file is in the cluster, or none stands at or
behind the element that is overwritten. -/
def Spared (T : ℤ → Fin 7 → BlkEnt) (f : ℤ) (cl : List ℤ) (cid : ℤ) : Prop :=
  (ownBids (T cid) f).length ≠ 1 ∨
    ∀ c ∈ cl.drop (setPlace (cl.idxOf cid)), c ≠ cid → ownBids (T c) f = []

/-! ### The tables -/

section Tables
variable {T : ℤ → Fin 7 → BlkEnt} {f cid : ℤ} {i : Fin 7}

/-- The tables with an entry cleared. -/
def dropBlk (T : ℤ → Fin 7 → BlkEnt) (cid : ℤ) (i : Fin 7) : ℤ → Fin 7 → BlkEnt :=
  Function.update T cid (Function.update (T cid) i ⟨0, 0⟩)

theorem set_dropBlk (a : Args) (d : Dev) : ((ctable a d cid).set (i.val + 1) 0 0).entrs =
    Function.update (tab a d cid) i ⟨0, 0⟩ := by
  funext j
  rw [BlockList.set_entrs, Function.update_apply]
  refine if_congr ?_ rfl rfl
  rw [Nat.add_right_cancel_iff, Fin.ext_iff]

theorem dropBlk_self : dropBlk T cid i cid i = ⟨0, 0⟩ := by
  rw [dropBlk, Function.update_self, Function.update_self]

theorem dropBlk_rest {c : ℤ} {j : Fin 7} (h : (c, j) ≠ (cid, i)) : dropBlk T cid i c j = T c j := by
  unfold dropBlk
  by_cases hc : c = cid
  · subst hc
    rw [Function.update_self, Function.update_of_ne fun hj => h (by rw [hj])]
  · rw [Function.update_of_ne hc]

theorem nodesOf_update (hf : u32 f ≠ 0) (e : Fin 7 → BlkEnt) (c : ℤ) :
    nodesOf (Function.update e i ⟨0, 0⟩) f c = (nodesOf e f c).filter fun b => b.bid ≠ i.val + 1 := by
  unfold nodesOf
  rw [List.filter_map, List.filter_filter]
  have hkept : ∀ j ∈ List.finRange 7, (u32 f == (Function.update e i ⟨0, 0⟩ j).fid) =
      (decide (j.val + 1 ≠ i.val + 1) && (u32 f == (e j).fid)) := by
    intro j _
    by_cases hj : j = i
    · simp [hj, hf]
    · have hne : j.val ≠ i.val := fun h => hj (Fin.ext h)
      simp [hj, hne]
  rw [List.filter_congr hkept]
  refine List.map_congr_left fun j hj => ?_
  have hji : j ≠ i := by
    rintro rfl
    simp at hj
  rw [Function.update_of_ne hji]

/-- **A freed block is taken out of the list of the file.** -/
theorem ownNodes_dropBlk (hf : u32 f ≠ 0) (cl : List ℤ) : ownNodes (dropBlk T cid i) f cl =
    (ownNodes T f cl).filter fun b => blkOf b ≠ (cid, i.val + 1) := by
  unfold ownNodes
  rw [List.filter_flatMap]
  refine List.flatMap_congr fun c _ => ?_
  by_cases hc : c = cid
  · subst hc
    rw [dropBlk, Function.update_self, nodesOf_update hf]
    refine List.filter_congr fun b hb => ?_
    rw [blkOf, (mem_nodesOf.mp hb).1]
    simp
  · rw [dropBlk, Function.update_of_ne hc]
    refine (List.filter_eq_self.mpr fun b hb => ?_).symm
    rw [blkOf, (mem_nodesOf.mp hb).1]
    simp [hc]

theorem ownBids_update (hf : u32 f ≠ 0) (e : Fin 7 → BlkEnt) :
    ownBids (Function.update e i ⟨0, 0⟩) f = (ownBids e f).filter fun b => b ≠ i.val + 1 := by
  have hbids : ∀ e : Fin 7 → BlkEnt, ownBids e f = (nodesOf e f 0).map BlkInfo.bid := by
    intro e
    unfold ownBids nodesOf
    rw [List.map_map]
    rfl
  rw [hbids, hbids, nodesOf_update hf, List.filter_map]
  rfl

theorem ownBids_dropBlk (hf : u32 f ≠ 0) (hblk : (T cid i).fid = u32 f)
    (hone : (ownBids (T cid) f).length = 1) : ownBids (dropBlk T cid i cid) f = [] := by
  obtain ⟨b, hb⟩ := List.length_eq_one_iff.mp hone
  have hmem : i.val + 1 ∈ ownBids (T cid) f := mem_ownBids.mpr ⟨i, rfl, hblk⟩
  rw [hb, List.mem_singleton] at hmem
  rw [dropBlk, Function.update_self, ownBids_update hf, hb, ← hmem]
  simp

theorem listed_once {cl : List ℤ} (hnd : (ownNodes T f cl).Nodup) (hblk : (T cid i).fid = u32 f)
    {j k : ℕ} (hj : j < cl.length) (hk : k < cl.length) (hcj : cl[j] = cid) (hck : cl[k] = cid) :
    j = k := by
  have hpair := List.pairwise_iff_getElem.mp (List.nodup_flatMap.mp hnd).2
  have hnode : (⟨cid, i.val + 1, (T cid i).num.toNat⟩ : BlkInfo) ∈ nodesOf (T cid) f cid :=
    mem_nodesOf.mpr ⟨rfl, i, rfl, hblk, rfl⟩
  have hlt : ∀ (j k : ℕ) (hj : j < cl.length) (hk : k < cl.length), cl[j] = cid → cl[k] = cid →
      ¬ j < k := by
    intro j k hj hk hcj hck hjk
    have hdis := hpair j k hj hk hjk
    unfold Function.onFun at hdis
    rw [hcj, hck] at hdis
    exact hdis hnode hnode
  exact Nat.le_antisymm (not_lt.mp (hlt k j hk hj hck hcj)) (not_lt.mp (hlt j k hj hk hcj hck))

end Tables

/-! ### The cluster list -/

section Loop
variable {a : Args} {s : St} {f cid : ℤ} {cl : List ℤ}

/-- The step of the loop at an element of the list in the cache. -/
theorem delClrLoop_succ (hfid : s.clrsCache.fid = f) (n i : ℕ) : delClrLoop a f cid (n + 1) i s =
    delClrLoop a f cid n (i + 1)
      (if clrsAt a s.clrsCache i = cid then (devTblClrsSet a s i 0).2 else s) := by
  rw [delClrLoop, devTblClrsGet_of_fid hfid, Option.bind_eq_bind, Option.bind_some]

theorem delClrLoop_skip (hfid : s.clrsCache.fid = f) (m n : ℕ) : ∀ {i : ℕ},
    (∀ j, i ≤ j → j < i + n → clrsAt a s.clrsCache j ≠ cid) →
      delClrLoop a f cid (n + m) i s = delClrLoop a f cid m (i + n) s := by
  induction n with
  | zero =>
    intro i _
    rw [Nat.zero_add, Nat.add_zero]
  | succ n ih =>
    intro i hne
    rw [show n + 1 + m = (n + m) + 1 by omega, delClrLoop_succ hfid,
      if_neg (hne i (le_refl i) (by omega)), ih fun j hij hj => hne j (by omega) (by omega),
      show i + 1 + n = i + (n + 1) by omega]

/-- **The loop overwrites one element**, that at the cluster's place or thirteen behind it. -/
theorem delClrLoop_eq (h : Cached a s cl) (hfid : s.clrsCache.fid = f) (h0 : cid ≠ 0) {k : ℕ}
    (hk : k < cl.length) (hat : ∀ (j : ℕ) (hj : j < cl.length), cl[j] = cid ↔ j = k) :
    ∃ c, Overwrites a s k 0 c ∧
      delClrLoop a f cid cl.length 0 s = some { s with clrsCache := c } := by
  have hread : ∀ (j : ℕ) (hj : j < cl.length), clrsAt a s.clrsCache j = cl[j] := by
    intro j hj
    rw [h.clr hj, List.getD_eq_getElem _ _ hj]
  have hset := devTblClrsSet_eq (v := 0) (by norm_num) h (lt_of_lt_of_le hk h.bound)
  rw [if_pos ⟨fun _ => hk, fun hle => by omega⟩] at hset
  obtain ⟨c, ho⟩ := hset
  have hbefore : ∀ j, 0 ≤ j → j < 0 + k → clrsAt a s.clrsCache j ≠ cid := by
    intro j _ hj
    rw [hread j (by omega), ne_eq, hat j (by omega)]
    omega
  have hbehind : ∀ j, k + 1 ≤ j → j < k + 1 + (cl.length - (k + 1)) → clrsAt a c j ≠ cid := by
    intro j hj hjl
    have hjl' : j < cl.length := by omega
    by_cases hjk : j = setPlace k
    · rw [hjk, ho.self (lt_of_lt_of_le (hjk ▸ hjl') h.bound)]
      exact h0.symm
    · rw [ho.rest j hjk, hread j hjl', ne_eq, hat j hjl']
      omega
  refine ⟨c, ho, ?_⟩
  calc delClrLoop a f cid cl.length 0 s
      = delClrLoop a f cid (k + (cl.length - (k + 1) + 1)) 0 s := by
        rw [show k + (cl.length - (k + 1) + 1) = cl.length by omega]
    _ = delClrLoop a f cid (cl.length - (k + 1) + 1) k s := by
        rw [delClrLoop_skip hfid _ k hbefore, Nat.zero_add]
    _ = delClrLoop a f cid (cl.length - (k + 1)) (k + 1) { s with clrsCache := c } := by
        rw [delClrLoop_succ hfid, if_pos ((hread k hk).trans ((hat k hk).mpr rfl)), ho.run]
    _ = some { s with clrsCache := c } :=
        delClrLoop_skip (s := { s with clrsCache := c }) (ho.fid.trans hfid) 0 _ hbehind

end Loop

/-! ### Rebuilding the list -/

section Rebuild
variable {a : Args} {s : St} {f : ℤ} {cl : List ℤ} {n : ℕ}

theorem seqCollect_zero (hf : f ≠ 0) (hfid : s.clrsCache.fid = f) (m : ℕ) {i : ℕ}
    (hend : 0 < m → clrsAt a s.clrsCache i = 0) (acc : List BlkInfo) :
    seqCollect a f m i acc s = some (acc, s) := by
  cases m with
  | zero => rfl
  | succ m =>
    refine Option.bind_eq_some_iff.mpr ⟨_, devTblClrsGet_of_fid hfid i, ?_⟩
    exact if_pos ⟨hf, hend (Nat.succ_pos m)⟩

/-- **The list is rebuilt from the clusters in the cache**, up to the first 0. -/
theorem devGetFileSeq_held (hm : Mounted a s.dev) (hf : f ≠ 0) (h : HasClrs s f n) (hn : n < 2 ^ 31)
    (hle : cl.length ≤ n) (hat : ∀ i < cl.length, clrsAt a s.clrsCache i = cl.getD i 0)
    (hend : cl.length < n → clrsAt a s.clrsCache cl.length = 0)
    (hrange : ∀ c ∈ cl, 1 ≤ c ∧ c < a.cluCnt) (hseq : s.mapSeq f = none) :
    devGetFileSeq a s f = if ownNodes (tab a s.dev) f cl = [] then none else
      some (sortNodes (ownNodes (tab a s.dev) f cl),
        cacheSeqAdd s f (sortNodes (ownNodes (tab a s.dev) f cl))) := by
  have hcol : seqCollect a f n 0 [] s = some (ownNodes (tab a s.dev) f cl, s) := by
    rw [show n = cl.length + (n - cl.length) by omega,
      seqCollect_get hm hf h.fid hat hrange (n - cl.length) cl.length [] (by omega), List.drop_zero,
      List.nil_append]
    exact seqCollect_zero hf h.fid _ (fun hpos => hend (by omega)) _
  unfold devGetFileSeq
  rw [hseq]
  dsimp only
  rw [h.load hn, Option.bind_eq_bind, Option.bind_some]
  dsimp only
  rw [toSizeT_natCast hn, hcol, Option.bind_eq_bind, Option.bind_some]
  dsimp only
  rw [seqSort_eq]
  rfl

/-- The clusters read are enough just when they list the blocks of the file. -/
theorem rebuilds_iff (hm : Mounted a s.dev) (hf : f ≠ 0) (h : HasClrs s f n) (hn : n < 2 ^ 31)
    (hle : cl.length ≤ n) (hat : ∀ i < cl.length, clrsAt a s.clrsCache i = cl.getD i 0)
    (hend : cl.length < n → clrsAt a s.clrsCache cl.length = 0)
    (hrange : ∀ c ∈ cl, 1 ≤ c ∧ c < a.cluCnt) (hne : nodesAt a (tab a s.dev) f ≠ []) :
    Rebuilds a s f ↔ (ownNodes (tab a s.dev) f cl).Perm (nodesAt a (tab a s.dev) f) := by
  have hop := devGetFileSeq_held (s := cacheSeqRm s f) hm hf ⟨h.fid, h.dir, h.ind, h.sum⟩ hn hle hat
    hend hrange (mapSeq_cacheSeqRm s f)
  unfold Rebuilds Rebuilt
  rw [hop]
  change (∃ l, (∃ t, (if ownNodes (tab a s.dev) f cl = [] then none else _) = some (l, t)) ∧ _) ↔ _
  constructor
  · rintro ⟨l, ⟨t, hl⟩, hperm⟩
    split_ifs at hl with hnil
    obtain ⟨rfl, -⟩ := Prod.mk.inj (Option.some.inj hl)
    exact (sortNodes_perm _).symm.trans hperm
  · intro hperm
    have hnil : ownNodes (tab a s.dev) f cl ≠ [] := by
      intro hnil
      rw [hnil] at hperm
      exact hne hperm.symm.eq_nil
    rw [if_neg hnil]
    exact ⟨_, ⟨_, rfl⟩, (sortNodes_perm _).trans hperm⟩

/-- **A stored list is rebuilt.** -/
theorem RightList.rebuilds (hm : Mounted a s.dev) (hf : f ≠ 0) (h : RightList a s f cl)
    (hne : nodesAt a (tab a s.dev) f ≠ []) : Rebuilds a s f := by
  obtain ⟨c, -, hop⟩ := devGetFileSeq_rebuild (s := cacheSeqRm s f) hm hf h.stored h.cache
    (mapSeq_cacheSeqRm s f)
  have hnil : ownNodes (tab a s.dev) f cl ≠ [] := by
    intro hnil
    have hperm := h.nodes
    rw [hnil] at hperm
    exact hne hperm.symm.eq_nil
  exact ⟨_, ⟨_, hop.trans (if_neg hnil)⟩, (sortNodes_perm _).trans h.nodes⟩

end Rebuild

/-! ### What is left behind -/

/-- **What `dev_del_block` does.** -/
structure Deleted (a : Args) (s s' : St) (f cid : ℤ) (i : Fin 7) (cl : List ℤ) : Prop where
  mounted : Mounted a s'.dev
  agree : Agree a s'.dev s'.fsBitmap
  tabs : tab a s'.dev = dropBlk (tab a s.dev) cid i
  blks : data a s'.dev = data a s.dev
  table : s'.fsTable = s.fsTable
  held : HasClrs s' f cl.length
  clrs : ∀ j < cl.length, clrsAt a s'.clrsCache j =
    if (ownBids (tab a s.dev cid) f).length = 1 ∧ j = setPlace (cl.idxOf cid) then 0 else cl.getD j 0

section Run
variable {a : Args} {s : St} {f cid : ℤ} {i : Fin 7} {cl : List ℤ}

/-- The bitmap is brought up to date, then the table is written. -/
theorem updBitmap_writeCtable (hm : Mounted a s.dev) (bl : BlockList) (h0 : 0 ≤ cid)
    (hc : cid < a.cluCnt) :
    ∃ u d bm, updBitmap a s bl cid = some u ∧
      devWriteCtable a u cid bl = some (-1, { s with dev := d, fsBitmap := bm }) ∧
      Mounted a d ∧ tab a d = Function.update (tab a s.dev) cid bl.entrs ∧
      data a d = data a s.dev ∧ full bm = Function.update (full s.fsBitmap) cid (taken bl.entrs) := by
  obtain ⟨d, bm, hu, hmd, htab, hdata, -, hfull⟩ := updBitmap_eq hm bl h0
  have hw := devWriteCtable_putTab (s := { s with dev := d, fsBitmap := bm }) hmd bl h0 hc
  refine ⟨_, putTab a d cid bl, bm, hu, hw, hmd.putTab cid bl, ?_, ?_, hfull⟩
  · rw [tab_putTab hmd bl h0 hc, htab]
  · rw [data_putTab bl h0 hc, hdata]

theorem RightList.place (h : RightList a s f cl) (hf : f ≠ 0) (h1 : 1 ≤ cid) (hcid : cid < a.cluCnt)
    (hblk : (tab a s.dev cid i).fid = u32 f) : cl.idxOf cid < cl.length ∧
      ∀ (j : ℕ) (hj : j < cl.length), cl[j] = cid ↔ j = cl.idxOf cid := by
  have hnode : (⟨cid, i.val + 1, (tab a s.dev cid i).num.toNat⟩ : BlkInfo) ∈
      nodesAt a (tab a s.dev) f :=
    (mem_nodesAt hf).mpr ⟨⟨h1, hcid⟩, i, rfl, hblk, rfl⟩
  have hmem : cid ∈ cl := (mem_ownNodes.mp (h.nodes.mem_iff.mpr hnode)).1
  have hk : cl.idxOf cid < cl.length := List.idxOf_lt_length_of_mem hmem
  have hnd : (ownNodes (tab a s.dev) f cl).Nodup := h.nodes.nodup_iff.mpr (nodup_nodesAt a _ f).of_map
  refine ⟨hk, fun j hj => ⟨fun hcj => listed_once hnd hblk hj hk hcj (List.getElem_idxOf hk), ?_⟩⟩
  rintro rfl
  exact List.getElem_idxOf hk

/-- **The cluster list is overwritten** if the block was the last one in the cluster. -/
theorem freeClrs_eq (hm : Mounted a s.dev) (h : Cached a s cl) (hfid : s.clrsCache.fid = f)
    (h0 : cid ≠ 0) {k : ℕ} (hk : k < cl.length) (hat : ∀ (j : ℕ) (hj : j < cl.length), cl[j] = cid ↔ j = k)
    (bLen : ℕ) (r : ℤ) : ∃ c d, (if bLen = 1 then
        (delClrLoop a f cid (toSizeT (cl.length : ℤ)) 0 s).bind fun s => some (r, (devWriteTable a s).2)
      else some (r, s)) = some (r, { s with clrsCache := c, dev := d }) ∧
      Mounted a d ∧ tab a d = tab a s.dev ∧ data a d = data a s.dev ∧
      HasClrs { s with clrsCache := c } f cl.length ∧
      ∀ j < cl.length, clrsAt a c j = if bLen = 1 ∧ j = setPlace k then 0 else cl.getD j 0 := by
  have hne : cl ≠ [] := List.length_pos_iff.mp (by omega)
  subst hfid
  by_cases hone : bLen = 1
  · have hlen : toSizeT (cl.length : ℤ) = cl.length :=
      toSizeT_natCast (lt_of_le_of_lt h.bound (s1Len_lt hm))
    obtain ⟨c, ho, hloop⟩ := delClrLoop_eq h rfl h0 hk hat
    have hviews := views_putTable hm s.fsTable
    refine ⟨c, putTable a s.dev s.fsTable, ?_, hm.putTable _, hviews.1, hviews.2,
      h.hasClrs hne ho.fid ho.dir ho.ind, fun j hj => ?_⟩
    · rw [if_pos hone, hlen, hloop, Option.bind_some,
        devWriteTable_putTable (s := { s with clrsCache := c }) hm]
    · by_cases hjk : j = setPlace k
      · rw [if_pos ⟨hone, hjk⟩, hjk]
        exact ho.self (lt_of_lt_of_le (hjk ▸ hj) h.bound)
      · rw [if_neg fun hz => hjk hz.2, ho.rest j hjk, h.clr hj]
  · refine ⟨s.clrsCache, s.dev, if_neg hone, hm, rfl, rfl, h.hasClrs hne rfl rfl rfl, fun j hj => ?_⟩
    rw [if_neg fun hz => hone hz.1, h.clr hj]

/-- **`dev_del_block` frees the block**, and may overwrite an element of the cached list. -/
theorem devDelBlock_eq (hm : Mounted a s.dev) (hag : Agree a s.dev s.fsBitmap) (hf : f ≠ 0)
    (h : RightList a s f cl) (h1 : 1 ≤ cid) (hcid : cid < a.cluCnt)
    (hblk : (tab a s.dev cid i).fid = u32 f) :
    ∃ r s', devDelBlock a s f cid (i.val + 1) = some (r, s') ∧ Deleted a s s' f cid i cl := by
  obtain ⟨hk, hat⟩ := h.place hf h1 hcid hblk
  obtain ⟨c, hcnt, hl⟩ := devTblClrsCnt_eq hm hf h.stored h.cache
  obtain ⟨u, d, bm, hupd, hw, hmd, htab, hdata, hbit⟩ :=
    updBitmap_writeCtable (s := { s with clrsCache := c }) hm ((ctable a s.dev cid).set (i.val + 1) 0 0) (by omega) hcid
  rw [set_dropBlk] at htab hbit
  have hcached : Cached a { s with clrsCache := c, dev := d, fsBitmap := bm } cl :=
    Slotted.cached (s := { s with dev := d, fsBitmap := bm }) h.stored.slotted hl fun x hx =>
      (h.stored.small hm.cluCnt_lt x hx).2
  obtain ⟨c', d', hop, hmd', htab', hdata', hheld, hclrs⟩ := freeClrs_eq hmd hcached hl.fid
    (show cid ≠ 0 by omega) hk hat (ownBids (tab a s.dev cid) f).length (-1)
  refine ⟨-1, { s with clrsCache := c', dev := d', fsBitmap := bm }, ?_, hmd', ?_, htab'.trans htab,
    hdata'.trans hdata, rfl, ⟨hheld.fid, hheld.dir, hheld.ind, hheld.sum⟩, hclrs⟩
  · unfold devDelBlock
    refine Option.bind_eq_some_iff.mpr ⟨_, hcnt, ?_⟩
    refine Option.bind_eq_some_iff.mpr ⟨_, hm.devReadCtable_eq (by omega) hcid, ?_⟩
    dsimp only
    rw [if_neg (by omega)]
    refine Option.bind_eq_some_iff.mpr ⟨_, hupd, ?_⟩
    exact Option.bind_eq_some_iff.mpr ⟨_, hw, hop⟩
  · exact hag.update (by omega) (htab'.trans htab) hbit

end Run

/-! ### What is kept -/

section Kept
variable {a : Args} {s s' : St} {f cid : ℤ} {i : Fin 7} {cl : List ℤ}

/-- Without the block, the clusters still list the blocks of the file. -/
theorem RightList.after (h : RightList a s f cl) (hu : u32 f ≠ 0) (hd : Deleted a s s' f cid i cl)
    {c : ClrsCache} (hc : CacheOk c f cl) : RightList a { s' with clrsCache := c } f cl := by
  refine ⟨?_, hc, ?_⟩
  · show Stored a s'.dev s'.fsTable f cl
    rw [hd.table]
    exact h.stored.views hd.blks
  · show (ownNodes (tab a s'.dev) f cl).Perm (ownNodes (tab a s'.dev) f (clustersOf a f))
    rw [hd.tabs, ownNodes_dropBlk hu, ownNodes_dropBlk hu]
    exact h.nodes.filter _

theorem Deleted.nodes_ne (hd : Deleted a s s' f cid i cl) (hf : f ≠ 0) {c : ℤ} {j : Fin 7} (h1 : 1 ≤ c)
    (hc : c < a.cluCnt) (hne : (c, j) ≠ (cid, i)) (hown : (tab a s.dev c j).fid = u32 f) :
    nodesAt a (tab a s'.dev) f ≠ [] := by
  have hfid : (tab a s'.dev c j).fid = u32 f := by rw [hd.tabs, dropBlk_rest hne, hown]
  have hmem : (⟨c, j.val + 1, (tab a s'.dev c j).num.toNat⟩ : BlkInfo) ∈ nodesAt a (tab a s'.dev) f :=
    (mem_nodesAt hf).mpr ⟨⟨h1, hc⟩, j, rfl, hfid, rfl⟩
  exact List.ne_nil_of_mem hmem

/-- The blocks in a cluster of the list are out of reach just when there are some. -/
theorem own_drop_nil (hu : u32 f ≠ 0) {T : ℤ → Fin 7 → BlkEnt} (hblk : (T cid i).fid = u32 f)
    (hone : (ownBids (T cid) f).length = 1) (l : List ℤ) : ownNodes (dropBlk T cid i) f l = [] ↔
      ∀ c ∈ l, c ≠ cid → ownBids (T c) f = [] := by
  have hnil : ∀ (e : Fin 7 → BlkEnt) (c : ℤ), nodesOf e f c = [] ↔ ownBids e f = [] := by
    intro e c
    rw [nodesOf, ownBids, List.map_eq_nil_iff, List.map_eq_nil_iff]
  unfold ownNodes
  rw [List.flatMap_eq_nil_iff]
  refine forall₂_congr fun c _ => ?_
  rw [hnil]
  by_cases hc : c = cid
  · subst hc
    exact iff_of_true (ownBids_dropBlk hu hblk hone) fun h => absurd rfl h
  · rw [dropBlk, Function.update_of_ne hc]
    exact (imp_iff_right hc).symm

/-- **The list is rebuilt as it should be exactly when no block is out of reach.** -/
theorem Deleted.rebuilds_iff (hd : Deleted a s s' f cid i cl) (hm : Mounted a s.dev)
    (h : RightList a s f cl) (hf : f ≠ 0) (hu : u32 f ≠ 0) (hblk : (tab a s.dev cid i).fid = u32 f)
    (hne : nodesAt a (tab a s'.dev) f ≠ []) :
    Rebuilds a s' f ↔ Spared (tab a s.dev) f cl cid := by
  have hlen : cl.length < 2 ^ 31 := h.stored.slotted.length_lt hm
  have hperm : (ownNodes (tab a s'.dev) f cl).Perm (nodesAt a (tab a s'.dev) f) :=
    (h.after hu hd (CacheOk.of_ne (c := ⟨f + 1, fun _ => 0, fun _ => 0, 0, 0⟩) (by simp))).nodes
  by_cases hone : (ownBids (tab a s.dev cid) f).length = 1
  · obtain ⟨p, hp⟩ : ∃ p, p = setPlace (cl.idxOf cid) := ⟨_, rfl⟩
    have htake : (cl.take p).length = min p cl.length := List.length_take
    have hclrs := hd.clrs
    rw [← hp] at hclrs
    have hat : ∀ j < (cl.take p).length, clrsAt a s'.clrsCache j = (cl.take p).getD j 0 := by
      intro j hj
      rw [hclrs j (by omega), if_neg (by omega), List.getD_eq_getElem _ _ hj, List.getElem_take,
        List.getD_eq_getElem]
    have hend : (cl.take p).length < cl.length → clrsAt a s'.clrsCache (cl.take p).length = 0 := by
      intro hlt
      rw [hclrs _ hlt, if_pos ⟨hone, by omega⟩]
    have hsplit : ownNodes (tab a s'.dev) f cl =
        ownNodes (tab a s'.dev) f (cl.take p) ++ ownNodes (tab a s'.dev) f (cl.drop p) := by
      unfold ownNodes
      rw [← List.flatMap_append, List.take_append_drop]
    have hrange : ∀ c ∈ cl.take p, 1 ≤ c ∧ c < a.cluCnt := fun c hc =>
      h.stored.range c (List.mem_of_mem_take hc)
    rw [Vol.rebuilds_iff hd.mounted hf hd.held hlen (by omega) hat hend hrange hne, Spared,
      or_iff_right (not_not.mpr hone), ← hp, ← own_drop_nil hu hblk hone, ← hd.tabs]
    rw [hsplit] at hperm
    constructor
    · intro hread
      have hsum := hperm.length_eq.trans hread.length_eq.symm
      rw [List.length_append] at hsum
      exact List.length_eq_zero_iff.mp (by omega)
    · intro hnil
      rw [hnil, List.append_nil] at hperm
      exact hperm
  · refine iff_of_true ?_ (Or.inl hone)
    refine (Vol.rebuilds_iff hd.mounted hf hd.held hlen (le_refl _) (fun j hj => ?_)
      (fun hlt => absurd hlt (lt_irrefl _)) h.stored.range hne).mpr hperm
    rw [hd.clrs j hj, if_neg fun hz => hone hz.1]

/-- **No cluster with blocks of the file is dropped** when none is out of reach. -/
theorem Deleted.listed (hd : Deleted a s s' f cid i cl) (hm : Mounted a s.dev) (h : RightList a s f cl)
    (hf : f ≠ 0) (hu : u32 f ≠ 0) (hblk : (tab a s.dev cid i).fid = u32 f)
    (hsp : Spared (tab a s.dev) f cl cid) {c : ℤ} (h1 : 1 ≤ c) (hc : c < a.cluCnt)
    (hown : ownBids (tab a s'.dev c) f ≠ []) : ListsClr a s' f c := by
  have hlen : cl.length < 2 ^ 31 := h.stored.slotted.length_lt hm
  -- the cluster is in the list
  obtain ⟨b, hb⟩ := List.exists_mem_of_ne_nil _ hown
  obtain ⟨m, -, hfid⟩ := mem_ownBids.mp hb
  have hkept : (c, m) ≠ (cid, i) := by
    intro heq
    obtain ⟨rfl, rfl⟩ := Prod.mk.inj heq
    rw [hd.tabs, dropBlk_self] at hfid
    exact hu hfid.symm
  rw [hd.tabs, dropBlk_rest hkept] at hfid
  obtain ⟨hj, hat⟩ := h.place hf h1 hc hfid
  refine ⟨cl.length, hd.held.cnt hlen, cl.idxOf c, by omega, ?_⟩
  have hread : clrOf a s' f (cl.idxOf c) = some (clrsAt a s'.clrsCache (cl.idxOf c)) :=
    clrOf_of_fid (c := s'.clrsCache) hd.held.fid _
  rw [hread, hd.clrs _ hj, if_neg, List.getD_eq_getElem _ _ hj, List.getElem_idxOf hj]
  rintro ⟨hone, hplace⟩
  -- it would stand where the 0 is
  have hcc : c ≠ cid := by
    rintro rfl
    rw [hd.tabs, ownBids_dropBlk hu hblk hone] at hown
    exact hown rfl
  have hmem : c ∈ cl.drop (setPlace (cl.idxOf cid)) := by
    rw [← hplace]
    exact List.mem_drop_iff_getElem.mpr ⟨0, by omega, List.getElem_idxOf hj⟩
  have hnil := hsp.resolve_left (not_not.mpr hone) c hmem hcc
  have hin : m.val + 1 ∈ ownBids (tab a s.dev c) f := mem_ownBids.mpr ⟨m, rfl, hfid⟩
  rw [hnil] at hin
  exact List.not_mem_nil hin

/-- **Exactly when the rest of the file is kept.** -/
theorem deletesOne_iff (hm : Mounted a s.dev) (hag : Agree a s.dev s.fsBitmap) (hf0 : 0 < f)
    (hft : f < tableLen) (h : RightList a s f cl) (h1 : 1 ≤ cid) (hcid : cid < a.cluCnt)
    (hblk : (tab a s.dev cid i).fid = u32 f) {c : ℤ} {j : Fin 7} (hc1 : 1 ≤ c) (hc : c < a.cluCnt)
    (hother : (c, j) ≠ (cid, i)) (hown : (tab a s.dev c j).fid = u32 f) :
    DeletesOne a s f cid i ↔ Spared (tab a s.dev) f cl cid := by
  have hf : f ≠ 0 := by omega
  have hu := (u32_fid hf0 hft).1
  obtain ⟨r, s', hop, hd⟩ := devDelBlock_eq hm hag hf h h1 hcid hblk
  have hne := hd.nodes_ne hf hc1 hc hother hown
  have hiff := hd.rebuilds_iff hm h hf hu hblk hne
  constructor
  · rintro ⟨r', u, hop', hfreed⟩
    obtain ⟨-, rfl⟩ := Prod.mk.inj (Option.some.inj (hop.symm.trans hop'))
    exact hiff.mp hfreed.now
  · intro hsp
    refine ⟨r, s', hop, ?_, fun c j hne => ?_, hd.agree, hiff.mpr hsp, fun c' hfid => ?_,
      fun c h1 hc => hd.listed hm h hf hu hblk hsp h1 hc⟩
    · rw [hd.tabs, dropBlk_self]
    · rw [hd.tabs, dropBlk_rest hne]
    · exact (h.after hu hd (CacheOk.of_ne hfid)).rebuilds hd.mounted hf hne

end Kept

/-! ### Two blocks in two clusters -/

/-- Block 1 of cluster 1 and block 1 of cluster 2 belong to file 1. -/
def spreadTab (c : ℕ) (i : Fin 7) : BlkEnt :=
  if c = 0 then ⟨0, UInt32.ofNat i⟩
  else if (c = 1 ∨ c = 2) ∧ i.val = 0 then ⟨1, UInt32.ofNat (c - 1)⟩ else ⟨0, 0⟩

/-- The file lists clusters 1 and 2. -/
def spreadEntry (f : ℤ) : TableEntry :=
  if f = 1 then ⟨1, fun i => if i = 0 then 1 else if i = 1 then 2 else 0⟩ else TableEntry.zero

/-- A volume with one file of two blocks. -/
def sevenSpread : St := sevenSt spreadTab (fun _ _ _ => 0) 0 (rootAnd spreadEntry)

theorem mounted_sevenSpread : Mounted sevenArgs sevenSpread.dev := mounted_sevenSt _ _ _ _

theorem tab_sevenSpread {c : ℤ} (h0 : 0 ≤ c) (hc : c < 7) :
    tab sevenArgs sevenSpread.dev c = spreadTab c.toNat := tab_sevenSt _ _ _ _ h0 hc

theorem agree_sevenSpread : Agree sevenArgs sevenSpread.dev sevenSpread.fsBitmap :=
  agree_sevenSt (by decide) (by decide)

theorem rightList_sevenSpread : RightList sevenArgs sevenSpread 1 [1, 2] := by
  have hslots : ∀ i < 13, (((rootAnd spreadEntry 1).clrs i).toNat : ℤ) = [(1 : ℤ), 2].getD i 0 := by
    decide
  have hsec : (((rootAnd spreadEntry 1).clrs 13).toNat : ℤ) = 0 := by decide
  have hrange : ∀ c ∈ [(1 : ℤ), 2], 1 ≤ c ∧ c < sevenArgs.cluCnt := by
    rw [cluCnt_sevenArgs]
    decide
  refine ⟨⟨⟨hslots, hrange, ?_, fun _ => hsec, fun h => absurd h (by simp)⟩,
    Nat.le_add_right_of_le (by simp), fun h => absurd h (by simp)⟩,
    CacheOk.of_ne (show (-1 : ℤ) ≠ 1 by simp), ownNodes_perm (by simp) (by simp) hrange ?_⟩
  · rw [s1Len_sevenArgs]
    decide
  · intro c h1 hc i hfid
    rw [cluCnt_sevenArgs] at hc
    rw [tab_sevenSpread (by omega) hc] at hfid
    unfold spreadTab at hfid
    split_ifs at hfid with hz hown
    · exact absurd hfid (show ¬ (0 : UInt32) = u32 1 by decide)
    · have hcases : c = 1 ∨ c = 2 := by omega
      rcases hcases with rfl | rfl <;> simp
    · exact absurd hfid (by decide)

theorem own_sevenSpread {c : ℤ} (h : c = 1 ∨ c = 2) :
    (tab sevenArgs sevenSpread.dev c 0).fid = u32 1 ∧
      ownBids (tab sevenArgs sevenSpread.dev c) 1 = [1] := by
  rcases h with rfl | rfl
  · rw [tab_sevenSpread (by simp) (by simp)]
    decide
  · rw [tab_sevenSpread (by simp) (by simp)]
    decide

/-- Freeing the block in the first cluster loses the other. -/
theorem not_deletesOne_first : ¬ ∀ (a : Args) (s : St) (f cid : ℤ) (i : Fin 7) (cl : List ℤ) (c : ℤ)
    (j : Fin 7), Mounted a s.dev → Agree a s.dev s.fsBitmap → 0 < f → f < tableLen →
    RightList a s f cl → 1 ≤ cid → cid < a.cluCnt → (tab a s.dev cid i).fid = u32 f → 1 ≤ c →
    c < a.cluCnt → (c, j) ≠ (cid, i) → (tab a s.dev c j).fid = u32 f → DeletesOne a s f cid i := by
  intro hall
  have hclu : (7 : ℤ) = sevenArgs.cluCnt := by rw [cluCnt_sevenArgs]; rfl
  obtain ⟨hblk, hone⟩ := own_sevenSpread (c := 1) (Or.inl rfl)
  obtain ⟨hblk', hone'⟩ := own_sevenSpread (c := 2) (Or.inr rfl)
  obtain ⟨r, s', hop, hfreed⟩ := hall sevenArgs sevenSpread 1 1 0 [1, 2] 2 0 mounted_sevenSpread
    agree_sevenSpread (by decide) (by decide) rightList_sevenSpread (by decide) (by omega) hblk (by decide)
    (by omega) (by simp) hblk'
  obtain ⟨r', u, hop', hd⟩ := devDelBlock_eq (i := 0) mounted_sevenSpread agree_sevenSpread
    (f := 1) (by simp) rightList_sevenSpread (le_refl 1) (by omega) hblk
  obtain ⟨-, rfl⟩ := Prod.mk.inj (Option.some.inj (hop.symm.trans hop'))
  have hne := hd.nodes_ne (by simp) (c := 2) (j := 0) (by simp) (by omega) (by simp) hblk'
  have hsp := (hd.rebuilds_iff mounted_sevenSpread rightList_sevenSpread (by decide) (by decide) hblk
    hne).mp hfreed.now
  rcases hsp with hmany | hnone
  · exact hmany (by rw [hone]; rfl)
  · have hnil := hnone 2 (by decide) (by decide)
    rw [hone'] at hnil
    cases hnil

/-- Freeing the block in the last one keeps it. -/
theorem deletesOne_second : DeletesOne sevenArgs sevenSpread 1 2 0 := by
  have hclu : (7 : ℤ) = sevenArgs.cluCnt := by rw [cluCnt_sevenArgs]; rfl
  refine (deletesOne_iff mounted_sevenSpread agree_sevenSpread (by decide) (by decide)
    rightList_sevenSpread (by simp) (by omega) (own_sevenSpread (Or.inr rfl)).1 (c := 1) (j := 0)
    (by simp) (by omega) (by simp) (own_sevenSpread (Or.inl rfl)).1).mpr
    (Or.inr fun c hc hne => ?_)
  have hdrop : [(1 : ℤ), 2].drop (setPlace ([(1 : ℤ), 2].idxOf 2)) = [2] := by decide
  rw [hdrop, List.mem_singleton] at hc
  exact absurd hc hne

end Fcfs.Vol
