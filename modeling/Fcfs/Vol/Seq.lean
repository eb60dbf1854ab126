import Fcfs.Vol.ClrAdd

/-! # Block lists

`dev_get_file_seq` returns the cached list of a file or rebuilds it from the cluster list; what it
rebuilds are the blocks that carry the file's identifier, cluster by cluster, in an order that is
not sorted: the sort compares the first two nodes only (`devGetFileSeq_rebuild`). The root's list is
made of the blocks of cluster 0 (`devGetFileSeq_root`). -/

namespace Fcfs.Vol

open Lib.Bytes

/-- The block a node names. -/
def blkOf (b : BlkInfo) : ℤ × ℕ := (b.cid, b.bid)

/-- The nodes of the blocks of a cluster that carry `fid`. -/
def nodesOf (e : Fin 7 → BlkEnt) (fid cid : ℤ) : List BlkInfo :=
  ((List.finRange 7).filter fun i => u32 fid == (e i).fid).map
    fun i => ⟨cid, i.val + 1, (e i).num.toNat⟩

theorem clusterBlks_entrs (bl : BlockList) (fid cid : ℤ) :
    clusterBlks bl fid cid = nodesOf bl.entrs fid cid := by
  have hget : devGetBlocks bl fid = ownBids bl.entrs fid := rfl
  unfold clusterBlks nodesOf
  rw [hget, ownBids, List.map_map]
  refine List.map_congr_left fun i _ => ?_
  have hi : i.val + 1 - 1 < 7 := by omega
  simp [BlockList.num]

theorem clusterBlks_eq (a : Args) (d : Dev) (fid cid : ℤ) :
    clusterBlks (ctable a d cid) fid cid = nodesOf (tab a d cid) fid cid :=
  clusterBlks_entrs _ fid cid

theorem mem_nodesOf {e : Fin 7 → BlkEnt} {fid cid : ℤ} {b : BlkInfo} :
    b ∈ nodesOf e fid cid ↔ b.cid = cid ∧ ∃ i : Fin 7, b.bid = i.val + 1 ∧ (e i).fid = u32 fid ∧
      b.num = (e i).num.toNat := by
  unfold nodesOf
  simp only [List.mem_map, List.mem_filter, List.mem_finRange, true_and, beq_iff_eq]
  constructor
  · rintro ⟨i, hi, rfl⟩
    exact ⟨rfl, i, rfl, hi.symm, rfl⟩
  · rintro ⟨rfl, i, hb, hf, hn⟩
    exact ⟨i, hf.symm, by rw [← hb, ← hn]⟩

theorem map_blkOf_nodesOf (e : Fin 7 → BlkEnt) (fid cid : ℤ) :
    (nodesOf e fid cid).map blkOf = (ownBids e fid).map fun b => (cid, b) := by
  unfold nodesOf ownBids
  rw [List.map_map, List.map_map]
  rfl

/-- The nodes of the blocks of a file in the clusters of a list. -/
def ownNodes (T : ℤ → Fin 7 → BlkEnt) (fid : ℤ) (cl : List ℤ) : List BlkInfo :=
  cl.flatMap fun c => nodesOf (T c) fid c

theorem mem_ownNodes {T : ℤ → Fin 7 → BlkEnt} {fid : ℤ} {cl : List ℤ} {b : BlkInfo} :
    b ∈ ownNodes T fid cl ↔ b.cid ∈ cl ∧ ∃ i : Fin 7, b.bid = i.val + 1 ∧
      (T b.cid i).fid = u32 fid ∧ b.num = (T b.cid i).num.toNat := by
  unfold ownNodes
  rw [List.mem_flatMap]
  constructor
  · rintro ⟨c, hc, hb⟩
    obtain ⟨rfl, hrest⟩ := mem_nodesOf.mp hb
    exact ⟨hc, hrest⟩
  · rintro ⟨hc, hrest⟩
    exact ⟨b.cid, hc, mem_nodesOf.mpr ⟨rfl, hrest⟩⟩

theorem nodup_ownNodes {T : ℤ → Fin 7 → BlkEnt} {fid : ℤ} {cl : List ℤ} (hcl : cl.Nodup) :
    ((ownNodes T fid cl).map blkOf).Nodup := by
  induction cl with
  | nil => exact List.nodup_nil
  | cons c cl ih =>
    obtain ⟨hc, hcl⟩ := List.nodup_cons.mp hcl
    unfold ownNodes
    rw [List.flatMap_cons, List.map_append, map_blkOf_nodesOf]
    refine ((nodup_ownBids _ _).map fun b b' h => (Prod.mk.inj h).2).append (ih hcl) ?_
    intro p hp hp'
    obtain ⟨b, -, rfl⟩ := List.mem_map.mp hp
    obtain ⟨n, hn, hnp⟩ := List.mem_map.mp hp'
    obtain ⟨hncl, -⟩ := mem_ownNodes.mp hn
    have hnc : n.cid = c := (Prod.mk.inj hnp).1
    exact hc (hnc ▸ hncl)

theorem ownNodes_congr {T T' : ℤ → Fin 7 → BlkEnt} {fid : ℤ} {cl : List ℤ}
    (h : ∀ c ∈ cl, T' c = T c) : ownNodes T' fid cl = ownNodes T fid cl :=
  List.flatMap_congr fun c hc => by rw [h c hc]

/-! ### The sort -/

/-- The first two nodes are in order. -/
def HeadSorted : List BlkInfo → Prop
  | x :: y :: _ => x.num ≤ y.num
  | _ => True

theorem sortPass_of_sorted {l : List BlkInfo} (h : HeadSorted l) (n : ℕ) (flag : Bool) :
    sortPass n flag l = (flag, l) := by
  induction n generalizing flag with
  | zero => unfold sortPass; rfl
  | succ n ih =>
    match l, h with
    | [], _ => unfold sortPass; rfl
    | [_], _ => unfold sortPass; rfl
    | x :: y :: l, h =>
      unfold sortPass
      rw [if_neg (Nat.not_lt.mpr h)]
      exact ih flag

theorem sortPass_perm (n : ℕ) (flag : Bool) (l : List BlkInfo) :
    (sortPass n flag l).2.Perm l ∧ (l.length ≤ n + 1 → HeadSorted (sortPass n flag l).2) := by
  match n, l with
  | 0, [] => unfold sortPass; exact ⟨List.Perm.refl _, fun _ => trivial⟩
  | 0, [_] => unfold sortPass; exact ⟨List.Perm.refl _, fun _ => trivial⟩
  | 0, x :: y :: l =>
    unfold sortPass
    exact ⟨List.Perm.refl _, fun h => by simp at h⟩
  | n + 1, [] => unfold sortPass; exact ⟨List.Perm.refl _, fun _ => trivial⟩
  | n + 1, [_] => unfold sortPass; exact ⟨List.Perm.refl _, fun _ => trivial⟩
  | n + 1, x :: y :: l =>
    unfold sortPass
    split_ifs with hgt
    · have hs : HeadSorted (y :: x :: l) := hgt.le
      rw [sortPass_of_sorted hs]
      exact ⟨List.Perm.swap _ _ _, fun _ => hs⟩
    · have hs : HeadSorted (x :: y :: l) := Nat.not_lt.mp hgt
      rw [sortPass_of_sorted hs]
      exact ⟨List.Perm.refl _, fun _ => hs⟩

/-- **The sort ends, with the nodes it was given.** -/
theorem seqSort_perm (l : List BlkInfo) (n : ℕ) : ∃ l', seqSort (n + 2) l = some l' ∧ l'.Perm l := by
  obtain ⟨hp, hs⟩ := sortPass_perm (l.length - 1) false l
  have hs' := hs (by omega)
  unfold seqSort
  dsimp only
  by_cases hflag : (sortPass (l.length - 1) false l).1 = true
  · rw [if_pos hflag]
    unfold seqSort
    dsimp only
    rw [sortPass_of_sorted hs', if_neg (by simp)]
    exact ⟨_, rfl, hp⟩
  · rw [if_neg hflag]
    exact ⟨_, rfl, hp⟩

/-- The nodes in the order the sort leaves them in. -/
def sortNodes (l : List BlkInfo) : List BlkInfo := (seqSort (l.length + 2) l).getD l

theorem seqSort_eq (l : List BlkInfo) : seqSort (l.length + 2) l = some (sortNodes l) := by
  obtain ⟨l', hop, -⟩ := seqSort_perm l l.length
  unfold sortNodes
  rw [hop, Option.getD_some]

theorem sortNodes_perm (l : List BlkInfo) : (sortNodes l).Perm l := by
  obtain ⟨l', hop, hperm⟩ := seqSort_perm l l.length
  unfold sortNodes
  rw [hop, Option.getD_some]
  exact hperm

/-! ### Rebuilding -/

section Rebuild
variable {a : Args} {f : ℤ} {cl : List ℤ}

/-- The loop over the clusters as far as the cache gives those of a list. -/
theorem seqCollect_get {s : St} (hm : Mounted a s.dev) (hf : f ≠ 0) (hfid : s.clrsCache.fid = f)
    (hat : ∀ i < cl.length, clrsAt a s.clrsCache i = cl.getD i 0)
    (hrange : ∀ c ∈ cl, 1 ≤ c ∧ c < a.cluCnt) (m n : ℕ) :
    ∀ {i : ℕ} (acc : List BlkInfo), i + n = cl.length →
      seqCollect a f (n + m) i acc s =
        seqCollect a f m cl.length (acc ++ ownNodes (tab a s.dev) f (cl.drop i)) s := by
  induction n with
  | zero =>
    intro i acc hi
    rw [List.drop_eq_nil_of_le (by omega), Nat.zero_add, show i = cl.length by omega]
    simp [ownNodes]
  | succ n ih =>
    intro i acc hi
    have hlt : i < cl.length := by omega
    have hget := devTblClrsGet_of_fid (a := a) hfid i
    obtain ⟨h1, hc⟩ := hrange _ (List.getElem_mem hlt)
    rw [show n + 1 + m = (n + m) + 1 by omega, seqCollect, hget]
    show (if f ≠ 0 ∧ clrsAt a s.clrsCache i = 0 then _ else _) = _
    rw [hat i hlt, List.getD_eq_getElem _ _ hlt, if_neg (by omega)]
    show (devReadCtable a s.dev cl[i] >>= fun bl => _) = _
    rw [hm.devReadCtable_eq (by omega) hc, Option.bind_eq_bind, Option.bind_some]
    dsimp only
    rw [if_neg hf, ih _ (by omega), clusterBlks_eq]
    have hcons : ownNodes (tab a s.dev) f (cl.drop i) =
        nodesOf (tab a s.dev cl[i]) f cl[i] ++ ownNodes (tab a s.dev) f (cl.drop (i + 1)) := by
      rw [List.drop_eq_getElem_cons hlt]
      rfl
    rw [hcons, List.append_assoc]

theorem seqCollect_eq {s : St} (hm : Mounted a s.dev) (hf : f ≠ 0)
    (han : Anchored a s.fsTable f cl) (hl : Loaded s.clrsCache f cl) :
    seqCollect a f cl.length 0 [] s = some (ownNodes (tab a s.dev) f cl, s) := by
  have hat : ∀ i < cl.length, clrsAt a s.clrsCache i = cl.getD i 0 := fun i hi =>
    clrsAt_eq hl (han.small hm.cluCnt_lt) hi (lt_of_lt_of_le hi han.bound)
  rw [← Nat.add_zero cl.length, seqCollect_get hm hf hl.fid hat han.range 0 cl.length [] (by omega)]
  rfl

/-- **A list that is not cached is rebuilt from the clusters**; there is no outcome when the
clusters have no block of the file. -/
theorem devGetFileSeq_rebuild {s : St} (hm : Mounted a s.dev) (hf : f ≠ 0)
    (hst : Stored a s.dev s.fsTable f cl) (hc : CacheOk s.clrsCache f cl) (hseq : s.mapSeq f = none) :
    ∃ c, Loaded c f cl ∧ devGetFileSeq a s f = if ownNodes (tab a s.dev) f cl = [] then none else
      some (sortNodes (ownNodes (tab a s.dev) f cl),
        cacheSeqAdd { s with clrsCache := c } f (sortNodes (ownNodes (tab a s.dev) f cl))) := by
  obtain ⟨c, hcnt, hl⟩ := devTblClrsCnt_eq hm hf hst hc
  have hsz : toSizeT (cl.length : ℤ) = cl.length := toSizeT_natCast (hst.slotted.length_lt hm)
  have hcol := seqCollect_eq (s := { s with clrsCache := c }) hm hf hst.toAnchored hl
  refine ⟨c, hl, ?_⟩
  unfold devGetFileSeq
  rw [hseq]
  dsimp only
  rw [hcnt, Option.bind_eq_bind, Option.bind_some]
  dsimp only
  rw [hsz, hcol, Option.bind_eq_bind, Option.bind_some]
  dsimp only
  rw [seqSort_eq]
  rfl

theorem devGetFileSeq_cached {s : St} {l : List BlkInfo} (h : s.mapSeq f = some l) :
    devGetFileSeq a s f = some (l, s) := by
  unfold devGetFileSeq
  rw [h]

theorem mapSeq_cacheSeqRm (s : St) (f : ℤ) : (cacheSeqRm s f).mapSeq f = none :=
  Function.update_self _ _ _

theorem cacheSeqRm_of_none {s : St} (h : s.mapSeq f = none) : cacheSeqRm s f = s := by
  unfold cacheSeqRm
  rw [← h, Function.update_eq_self]

end Rebuild

/-! ### The root -/

/-- The table entry of the root: one cluster, number 0, and no second-level array. -/
structure RootEntry (t : FcfsTable) : Prop where
  slot : (t.entrs 0).clrs 0 = 0
  sec : (t.entrs 0).clrs 13 = 0

theorem RootEntry.secAddr_eq {t : FcfsTable} (h : RootEntry t) : secAddr t 0 = 0 := by
  unfold secAddr
  rw [h.sec]
  rfl

section Root
variable {a : Args} {s : St} (hroot : RootEntry s.fsTable)
include hroot

/-- **The root has one cluster.** -/
theorem devTblClrsCnt_root (hc : CacheOk s.clrsCache 0 [0]) :
    ∃ c, devTblClrsCnt a s 0 = some (1, { s with clrsCache := c }) ∧ Loaded c 0 [0] := by
  have hlen : min 13 [(0 : ℤ)].length = 1 := rfl
  obtain ⟨c0, hc0, hfid0, hok0⟩ : ∃ c, c = (if s.clrsCache.fid ≠ 0 then tblClrsReinit s.clrsCache 0
      else s.clrsCache) ∧ c.fid = 0 ∧ CacheOk c 0 [0] := by
    refine ⟨_, rfl, ?_, ?_⟩
    · split_ifs with hne
      · rfl
      · exact not_not.mp hne
    · split_ifs with hne
      · exact ⟨fun _ h => absurd rfl h, fun _ h => absurd rfl h⟩
      · exact hc
  have h1 : c0.s1Cnt = 0 := by
    by_contra hne
    exact hne (hok0.ind hfid0 hne).1
  have hload : devTblLoadFir s 0 = (1, Function.update s.clrsCache.s0Cl 0 0) := by
    unfold devTblLoadFir loadFirLoop
    rw [if_neg (by simp), hroot.slot]
    rfl
  obtain ⟨c1, hc1, hl⟩ : ∃ c, c = clrsStage0 s 0 c0 ∧ Loaded c 0 [0] := by
    refine ⟨_, rfl, ?_⟩
    have hind : ∀ c : ClrsCache, c.s1Cnt = 0 → IndOk c [0] := fun c h =>
      ⟨h, fun j hj => absurd hj (Nat.not_lt_zero j)⟩
    unfold clrsStage0
    split_ifs with h0
    · refine ⟨hfid0, ⟨congrArg Prod.fst hload, fun i hi => ?_⟩, hind _ h1⟩
      obtain rfl : i = 0 := by omega
      show (((devTblLoadFir s 0).2 0).toNat : ℤ) = 0
      rw [hload]
      rfl
    · exact ⟨hfid0, hok0.dir hfid0 h0, hind _ h1⟩
  have hsum : c1.s0Cnt + c1.s1Cnt = 1 := by
    rw [hl.dir.1, hl.ind.1]
    rfl
  have hstage : clrsStage1 a s.dev ((s.fsTable.entrs 0).clrs 13) c1 = some c1 :=
    if_neg fun h => h.1 hroot.sec
  refine ⟨c1, ?_, hl⟩
  unfold devTblClrsCnt
  rw [← hc0]
  dsimp only
  rw [← hc1]
  refine Option.bind_eq_some_iff.mpr ⟨_, hstage, ?_⟩
  rw [hsum]
  rfl

/-- The root's list is rebuilt from what cluster 0 reads as. -/
theorem devGetFileSeq_root_of {bl : BlockList} (hs1 : 0 < s1Len a)
    (hread : devReadCtable a s.dev 0 = some bl) (hc : CacheOk s.clrsCache 0 [0])
    (hseq : s.mapSeq 0 = none) (hne : nodesOf bl.entrs 0 0 ≠ []) :
    ∃ c, devGetFileSeq a s 0 = some (sortNodes (nodesOf bl.entrs 0 0),
        cacheSeqAdd { s with clrsCache := c } 0 (sortNodes (nodesOf bl.entrs 0 0))) ∧
      Loaded c 0 [0] := by
  obtain ⟨c, hcnt, hl⟩ := devTblClrsCnt_root (a := a) hroot hc
  have hget : devTblClrsGet a { s with clrsCache := c } 0 0 = some (0, { s with clrsCache := c }) := by
    have hsmall : ∀ x ∈ [(0 : ℤ)], 0 ≤ x ∧ x < 2 ^ 31 := by simp
    exact devTblClrsGet_eq (i := 0) hl hsmall Nat.one_pos hs1
  refine ⟨c, ?_, hl⟩
  unfold devGetFileSeq
  rw [hseq]
  refine Option.bind_eq_some_iff.mpr ⟨_, hcnt, ?_⟩
  refine Option.bind_eq_some_iff.mpr ⟨(nodesOf bl.entrs 0 0, { s with clrsCache := c }), ?_, ?_⟩
  · show seqCollect a 0 1 0 [] { s with clrsCache := c } = _
    unfold seqCollect
    refine Option.bind_eq_some_iff.mpr ⟨_, hget, ?_⟩
    refine (if_neg fun h => h.1 rfl).trans ?_
    refine Option.bind_eq_some_iff.mpr ⟨_, hread, ?_⟩
    rw [if_pos rfl, clusterBlks_entrs, List.nil_append]
  · dsimp only
    rw [if_neg hne]
    exact Option.bind_eq_some_iff.mpr ⟨_, seqSort_eq _, rfl⟩

/-- **The root's list is rebuilt from cluster 0.** -/
theorem devGetFileSeq_root (hm : Mounted a s.dev) (hclu : 0 < a.cluCnt)
    (hc : CacheOk s.clrsCache 0 [0]) (hseq : s.mapSeq 0 = none)
    (hne : nodesOf (tab a s.dev 0) 0 0 ≠ []) :
    ∃ c, devGetFileSeq a s 0 = some (sortNodes (nodesOf (tab a s.dev 0) 0 0),
        cacheSeqAdd { s with clrsCache := c } 0 (sortNodes (nodesOf (tab a s.dev 0) 0 0))) ∧
      Loaded c 0 [0] := by
  have hL : 1024 ≤ a.lblkSz := hm.geo.le_lblkSz
  exact devGetFileSeq_root_of hroot (by unfold s1Len; omega)
    (hm.devReadCtable_eq (le_refl 0) (by omega)) hc hseq hne

end Root

/-! ### What building a list leaves as it was -/

section Frame
variable {a : Args} {s s' : St} {f : ℤ}

theorem clrsStage1_fid {d : Dev} {cid : UInt16} {c c' : ClrsCache}
    (h : clrsStage1 a d cid c = some c') : c'.fid = c.fid := by
  unfold clrsStage1 at h
  split_ifs at h
  · obtain ⟨⟨n, w⟩, -, h⟩ := Option.bind_eq_some_iff.mp h
    obtain rfl := Option.some.inj h
    rfl
  · obtain rfl := Option.some.inj h
    rfl

theorem devTblClrsCnt_frame {n : ℤ} (h : devTblClrsCnt a s f = some (n, s')) :
    ∃ c, s' = { s with clrsCache := c } ∧ c.fid = f := by
  unfold devTblClrsCnt at h
  obtain ⟨c, hc, h⟩ := Option.bind_eq_some_iff.mp h
  obtain ⟨-, rfl⟩ := Prod.mk.inj (Option.some.inj h)
  have hstage : ∀ c0 : ClrsCache, (clrsStage0 s f c0).fid = c0.fid := by
    intro c0
    unfold clrsStage0
    split_ifs <;> rfl
  refine ⟨c, rfl, (clrsStage1_fid hc).trans ((hstage _).trans ?_)⟩
  split_ifs with hne
  · rfl
  · exact not_not.mp hne

theorem devTblClrsGet_frame {n : ℤ} {i : ℕ} (hfid : s.clrsCache.fid = f)
    (h : devTblClrsGet a s f i = some (n, s')) : s' = s := by
  unfold devTblClrsGet clrsLoad at h
  rw [if_neg (not_not.mpr hfid)] at h
  exact (Prod.mk.inj (Option.some.inj h)).2.symm

theorem seqCollect_frame (hfid : s.clrsCache.fid = f) : ∀ {n i : ℕ} {acc l : List BlkInfo},
    seqCollect a f n i acc s = some (l, s') → s' = s
  | 0, i, acc, l, h => by
    unfold seqCollect at h
    exact (Prod.mk.inj (Option.some.inj h)).2.symm
  | n + 1, i, acc, l, h => by
    unfold seqCollect at h
    obtain ⟨⟨cid, t⟩, hget, hrest⟩ := Option.bind_eq_some_iff.mp h
    have ht : t = s := devTblClrsGet_frame hfid hget
    dsimp only at hrest
    rw [ht] at hrest
    by_cases hend : f ≠ 0 ∧ cid = 0
    · rw [if_pos hend] at hrest
      exact (Prod.mk.inj (Option.some.inj hrest)).2.symm
    · rw [if_neg hend] at hrest
      obtain ⟨bl, -, hrest⟩ := Option.bind_eq_some_iff.mp hrest
      split_ifs at hrest
      · exact (Prod.mk.inj (Option.some.inj hrest)).2.symm
      · exact seqCollect_frame hfid hrest

/-- **Only the two caches change**: the list is in the cache afterwards, and if it had to be built,
the cluster list it was built from. -/
theorem devGetFileSeq_frame {l : List BlkInfo} (h : devGetFileSeq a s f = some (l, s')) :
    ∃ c, s' = cacheSeqAdd { s with clrsCache := c } f l ∧
      (s.mapSeq f = some l ∧ c = s.clrsCache ∨
        s.mapSeq f = none ∧ ∃ n, devTblClrsCnt a s f = some (n, { s with clrsCache := c })) := by
  unfold devGetFileSeq at h
  cases hseq : s.mapSeq f with
  | some l' =>
    rw [hseq] at h
    obtain ⟨rfl, rfl⟩ := Prod.mk.inj (Option.some.inj h)
    refine ⟨s.clrsCache, ?_, Or.inl ⟨rfl, rfl⟩⟩
    unfold cacheSeqAdd
    rw [← hseq, Function.update_eq_self]
  | none =>
    rw [hseq] at h
    obtain ⟨⟨n, t⟩, hcnt, h⟩ := Option.bind_eq_some_iff.mp h
    obtain ⟨c, rfl, hfid⟩ := devTblClrsCnt_frame hcnt
    obtain ⟨⟨l', u⟩, hcol, h⟩ := Option.bind_eq_some_iff.mp h
    obtain rfl := seqCollect_frame hfid hcol
    dsimp only at h
    split_ifs at h
    obtain ⟨l'', -, h⟩ := Option.bind_eq_some_iff.mp h
    obtain ⟨rfl, rfl⟩ := Prod.mk.inj (Option.some.inj h)
    exact ⟨c, rfl, Or.inr ⟨rfl, n, hcnt⟩⟩

/-- The nodes collected are blocks of the file in the cluster they name. -/
theorem seqCollect_mem (hfid : s.clrsCache.fid = f) : ∀ {n i : ℕ} {acc l : List BlkInfo},
    seqCollect a f n i acc s = some (l, s') → ∀ b ∈ l, b ∈ acc ∨
      ∃ bl, devReadCtable a s.dev b.cid = some bl ∧ b ∈ clusterBlks bl f b.cid
  | 0, i, acc, l, h => by
    unfold seqCollect at h
    obtain ⟨rfl, -⟩ := Prod.mk.inj (Option.some.inj h)
    exact fun b hb => Or.inl hb
  | n + 1, i, acc, l, h => by
    unfold seqCollect at h
    obtain ⟨⟨cid, t⟩, hget, hrest⟩ := Option.bind_eq_some_iff.mp h
    have ht : t = s := devTblClrsGet_frame hfid hget
    dsimp only at hrest
    rw [ht] at hrest
    by_cases hend : f ≠ 0 ∧ cid = 0
    · rw [if_pos hend] at hrest
      obtain ⟨rfl, -⟩ := Prod.mk.inj (Option.some.inj hrest)
      exact fun b hb => Or.inl hb
    · rw [if_neg hend] at hrest
      obtain ⟨bl, hbl, hrest⟩ := Option.bind_eq_some_iff.mp hrest
      have hnew : ∀ b ∈ clusterBlks bl f cid,
          ∃ bl, devReadCtable a s.dev b.cid = some bl ∧ b ∈ clusterBlks bl f b.cid := by
        intro b hb
        obtain ⟨k, -, hk⟩ := List.mem_map.mp hb
        obtain rfl : cid = b.cid := congrArg BlkInfo.cid hk
        exact ⟨bl, hbl, hb⟩
      intro b hb
      rcases ite_eq_iff.mp hrest with ⟨-, hrest⟩ | ⟨-, hrest⟩
      · obtain ⟨rfl, -⟩ := Prod.mk.inj (Option.some.inj hrest)
        exact (List.mem_append.mp hb).imp_right (hnew b)
      · rcases seqCollect_mem hfid hrest b hb with hb | hb
        · exact (List.mem_append.mp hb).imp_right (hnew b)
        · exact Or.inr hb

/-- **A list that is built holds only blocks of the file**, whatever the cluster list says. -/
theorem devGetFileSeq_mem {l : List BlkInfo} (hseq : s.mapSeq f = none)
    (h : devGetFileSeq a s f = some (l, s')) {b : BlkInfo} (hb : b ∈ l) :
    ∃ bl, devReadCtable a s.dev b.cid = some bl ∧ b ∈ clusterBlks bl f b.cid := by
  unfold devGetFileSeq at h
  rw [hseq] at h
  obtain ⟨⟨n, t⟩, hcnt, h⟩ := Option.bind_eq_some_iff.mp h
  obtain ⟨c, rfl, hfid⟩ := devTblClrsCnt_frame hcnt
  obtain ⟨⟨l', u⟩, hcol, h⟩ := Option.bind_eq_some_iff.mp h
  dsimp only at h
  split_ifs at h
  obtain ⟨l'', hsort, h⟩ := Option.bind_eq_some_iff.mp h
  obtain ⟨rfl, -⟩ := Prod.mk.inj (Option.some.inj h)
  rw [seqSort_eq] at hsort
  obtain rfl := Option.some.inj hsort
  have hb' := (sortNodes_perm l').mem_iff.mp hb
  exact (seqCollect_mem hfid hcol b hb').resolve_left List.not_mem_nil

end Frame

end Fcfs.Vol
