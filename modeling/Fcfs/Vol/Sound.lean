import Fcfs.Vol.Isolation
import Mathlib.Data.List.Nodup

/-! # Files that can be looked up

`nodesAt` lists the blocks of a file as the cluster tables have them, whatever the caches hold.
`FileOk` says of one file that everything the driver knows of it agrees with that list: its stored
and its cached cluster list, its cached block list, the numbers of its blocks and its size. Looking
up a file that is in order gives its blocks (`FileOk.lookup`), and work on another file leaves it in
order (`FileOk.of_onFile`). The same holds of the traces a deleted file leaves behind (`FreeOk`). -/

namespace Fcfs.Vol

open Lib.Bytes Lib.Paged

/-! ### The blocks of a file -/

/-- The clusters the blocks of a file can lie in. -/
def clustersOf (a : Args) (f : ℤ) : List ℤ :=
  if f = 0 then [0] else (List.range (a.cluCnt - 1)).map fun k : ℕ => (k : ℤ) + 1

/-- **The nodes of a file's blocks** as the cluster tables have them. -/
def nodesAt (a : Args) (T : ℤ → Fin 7 → BlkEnt) (f : ℤ) : List BlkInfo :=
  ownNodes T f (clustersOf a f)

section Nodes
variable {a : Args} {T : ℤ → Fin 7 → BlkEnt} {f : ℤ}

theorem mem_clustersOf (hf : f ≠ 0) {c : ℤ} : c ∈ clustersOf a f ↔ 1 ≤ c ∧ c < a.cluCnt := by
  unfold clustersOf
  rw [if_neg hf, List.mem_map]
  constructor
  · rintro ⟨k, hk, rfl⟩
    rw [List.mem_range] at hk
    omega
  · rintro ⟨h1, hc⟩
    exact ⟨(c - 1).toNat, List.mem_range.mpr (by omega), by omega⟩

theorem clustersOf_root : clustersOf a 0 = [0] := if_pos rfl

theorem nodup_clustersOf (a : Args) (f : ℤ) : (clustersOf a f).Nodup := by
  unfold clustersOf
  split_ifs
  · exact List.nodup_singleton 0
  · exact List.nodup_range.map fun i j hij => by simpa using hij

theorem nodup_nodesAt (a : Args) (T : ℤ → Fin 7 → BlkEnt) (f : ℤ) :
    ((nodesAt a T f).map blkOf).Nodup :=
  nodup_ownNodes (nodup_clustersOf a f)

theorem mem_nodesAt (hf : f ≠ 0) {b : BlkInfo} : b ∈ nodesAt a T f ↔
    (1 ≤ b.cid ∧ b.cid < a.cluCnt) ∧ ∃ i : Fin 7, b.bid = i.val + 1 ∧ (T b.cid i).fid = u32 f ∧
      b.num = (T b.cid i).num.toNat := by
  unfold nodesAt
  rw [mem_ownNodes, mem_clustersOf hf]

theorem perm_of_mem {l l' : List BlkInfo} (h : (l.map blkOf).Nodup) (h' : (l'.map blkOf).Nodup)
    (hmem : ∀ b, b ∈ l ↔ b ∈ l') : l.Perm l' :=
  (List.perm_ext_iff_of_nodup h.of_map h'.of_map).mpr hmem

/-- **The clusters of a file list its blocks**, if they are all there and there once. -/
theorem ownNodes_perm (hf : f ≠ 0) {cl : List ℤ} (hnd : cl.Nodup)
    (hrange : ∀ c ∈ cl, 1 ≤ c ∧ c < a.cluCnt)
    (hall : ∀ c : ℤ, 1 ≤ c → c < a.cluCnt → ∀ i, (T c i).fid = u32 f → c ∈ cl) :
    (ownNodes T f cl).Perm (nodesAt a T f) := by
  refine perm_of_mem (nodup_ownNodes hnd) (nodup_nodesAt a T f) fun b => ?_
  rw [mem_nodesAt hf, mem_ownNodes]
  constructor
  · rintro ⟨hc, hrest⟩
    exact ⟨hrange _ hc, hrest⟩
  · rintro ⟨⟨h1, hc⟩, i, hb, hfid, hnum⟩
    exact ⟨hall _ h1 hc i hfid, i, hb, hfid, hnum⟩

/-- The blocks of a list in order are those of a rearranged one. -/
theorem SeqOk.perm {l l' : List BlkInfo} (h : SeqOk a l) (hp : l'.Perm l) : SeqOk a l' :=
  ⟨fun b hb => h.inVol b (hp.mem_iff.mp hb), (hp.map blkOf).nodup_iff.mpr h.nodup, by
    rw [hp.length_eq]
    exact (hp.map BlkInfo.num).trans h.nums⟩

/-- **The order of the nodes does not matter.** -/
theorem content_perm {l l' : List BlkInfo} (h : SeqOk a l) (hp : l'.Perm l) (d : Dev) :
    content a d l' = content a d l := by
  have h' := h.perm hp
  have hpage : ∀ k, page a d l' k = page a d l k := by
    intro k
    by_cases hk : k < l.length
    · obtain ⟨b, hb, rfl⟩ := h.exists_num hk
      rw [page_of_mem h d hb, page_of_mem h' d (hp.mem_iff.mpr hb)]
    · have hnone : ∀ l₀ : List BlkInfo, SeqOk a l₀ → l₀.length = l.length →
          (l₀.find? fun b => b.num == k) = none := by
        intro l₀ h₀ hlen
        refine List.find?_eq_none.mpr fun b hb => ?_
        have hlt := h₀.num_lt hb
        simp only [beq_iff_eq]
        omega
      unfold page
      rw [hnone l h rfl, hnone l' h' hp.length_eq]
  unfold content
  rw [funext hpage]

theorem seqOk_nodesAt (hclu : 0 < a.cluCnt)
    (hnums : ((nodesAt a T f).map BlkInfo.num).Perm (List.range (nodesAt a T f).length)) :
    SeqOk a (nodesAt a T f) := by
  refine ⟨fun b hb => ?_, nodup_nodesAt a T f, hnums⟩
  have hrange : 0 ≤ b.cid ∧ b.cid < a.cluCnt := by
    have hc := (mem_ownNodes.mp hb).1
    by_cases hf : f = 0
    · rw [hf, clustersOf_root, List.mem_singleton] at hc
      omega
    · have := (mem_clustersOf hf).mp hc
      omega
  obtain ⟨-, i, hi, -⟩ := mem_ownNodes.mp hb
  exact ⟨hrange.1, hrange.2, by omega, by omega⟩

end Nodes

/-! ### A file in order -/

/-- **A file in order**, the root or one with the cluster list `cl`: the stored list can be read
back, its address cluster is claimed, its clusters list the file's blocks, the caches hold nothing
else of the file, the blocks are numbered from 0, and the size fits into them. -/
structure FileOk (a : Args) (s : St) (f : ℤ) (cl : List ℤ) : Prop where
  root : f = 0 → RootEntry s.fsTable ∧ cl = [0]
  stored : f ≠ 0 → Stored a s.dev s.fsTable f cl
  owned : SecOwned a s f
  cache : CacheOk s.clrsCache f cl
  nodes : (ownNodes (tab a s.dev) f cl).Perm (nodesAt a (tab a s.dev) f)
  nums : ((nodesAt a (tab a s.dev) f).map BlkInfo.num).Perm
    (List.range (nodesAt a (tab a s.dev) f).length)
  ne : nodesAt a (tab a s.dev) f ≠ []
  cached : ∀ l, s.mapSeq f = some l → l.Perm (nodesAt a (tab a s.dev) f)
  size : 4 + fileSz a s.dev (nodesAt a (tab a s.dev) f) ≤
    (nodesAt a (tab a s.dev) f).length * a.lblkSz

/-- **What is left of a deleted file**, or of none: a cluster list that can be read back, and no
block. -/
structure FreeOk (a : Args) (s : St) (f : ℤ) (cl : List ℤ) : Prop where
  stored : Stored a s.dev s.fsTable f cl
  owned : SecOwned a s f
  cache : CacheOk s.clrsCache f cl
  none : ∀ c : ℤ, 0 ≤ c → c < a.cluCnt → ∀ i, (tab a s.dev c i).fid ≠ u32 f

section FileOk
variable {a : Args} {s : St} {f : ℤ} {cl : List ℤ}

theorem fileSz_perm {l l' : List BlkInfo} (h : SeqOk a l) (hp : l'.Perm l) (d : Dev) :
    fileSz a d l' = fileSz a d l := by
  unfold fileSz
  rw [content_perm h hp]

theorem FileOk.cluCnt_pos (h : FileOk a s f cl) : 0 < a.cluCnt := by
  by_contra h0
  by_cases hf : f = 0
  · -- behind the volume every entry reads as number 0
    subst hf
    have htab : tab a s.dev 0 = fun _ => ⟨0, 0⟩ := by
      unfold tab ctable
      rw [if_neg (by omega)]
      rfl
    have hnodes : nodesAt a (tab a s.dev) 0 =
        (List.finRange 7).map fun i => ⟨0, i.val + 1, 0⟩ := by
      unfold nodesAt ownNodes
      rw [clustersOf_root, List.flatMap_singleton, htab]
      rfl
    have hnums := h.nums
    rw [hnodes] at hnums
    have h6 := hnums.mem_iff.mpr (show 6 ∈ List.range 7 by decide)
    simp at h6
  · obtain ⟨b, hb⟩ := List.exists_mem_of_ne_nil _ h.ne
    have := (mem_nodesAt hf).mp hb
    omega

theorem FileOk.seqOk (h : FileOk a s f cl) : SeqOk a (nodesAt a (tab a s.dev) f) :=
  seqOk_nodesAt h.cluCnt_pos h.nums

theorem FileOk.fileSeq (h : FileOk a s f cl) (hag : Agree a s.dev s.fsBitmap) (h0 : 0 < f)
    (hf : f < tableLen) {l : List BlkInfo} (hl : l.Perm (nodesAt a (tab a s.dev) f)) :
    FileSeq a (tab a s.dev) f l := by
  have hne : f ≠ 0 := by omega
  have hok := h.seqOk.perm hl
  refine ⟨fun p => ?_, fun b hb => ((mem_nodesAt hne).mp (hl.mem_iff.mp hb)).1.1, hok.nodup, hok.nums,
    fun hnil => h.ne ((hnil ▸ hl).symm.eq_nil)⟩
  rw [(hl.map blkOf).mem_iff, List.mem_map]
  constructor
  · rintro ⟨b, hb, rfl⟩
    obtain ⟨⟨h1, hc⟩, i, hi, hfid, -⟩ := (mem_nodesAt hne).mp hb
    exact ⟨by simp only [blkOf]; omega, hc, i, hi, hfid⟩
  · rintro ⟨hp0, hc, i, hi, hfid⟩
    have h1 : 1 ≤ p.1 := by
      by_contra hlt
      have hz : p.1 = 0 := by omega
      rw [hz, hag.root] at hfid
      exact (u32_fid h0 hf).1 hfid.symm
    exact ⟨⟨p.1, p.2, (tab a s.dev p.1 i).num.toNat⟩,
      (mem_nodesAt hne).mpr ⟨⟨h1, hc⟩, i, hi, hfid, rfl⟩, rfl⟩

/-- What is stored is the same on a device with the same blocks. -/
theorem Stored.views {d d' : Dev} {t : FcfsTable} (h : Stored a d t f cl)
    (hd : data a d' = data a d) : Stored a d' t f cl := by
  refine ⟨h.toAnchored, h.cap, fun hlong => ?_⟩
  have hbytes : secBytes a d' (secAddr t f) = secBytes a d (secAddr t f) := by
    unfold secBytes
    rw [hd]
  unfold SecWords
  rw [hbytes]
  exact h.words hlong

/-- The caches may change to what still agrees, and the device to one that looks the same. -/
theorem FileOk.congr {s' : St} (h : FileOk a s f cl) (ht : tab a s'.dev = tab a s.dev)
    (hd : data a s'.dev = data a s.dev) (hfs : s'.fsTable = s.fsTable)
    (hc : CacheOk s'.clrsCache f cl)
    (hs : ∀ l, s'.mapSeq f = some l → l.Perm (nodesAt a (tab a s.dev) f)) : FileOk a s' f cl := by
  refine ⟨fun hf => hfs ▸ h.root hf, fun hf => ?_, ?_, hc, ?_, ?_, ?_, ?_, ?_⟩
  · rw [hfs]
    exact (h.stored hf).views hd
  · unfold SecOwned
    rw [ht, hfs]
    exact h.owned
  all_goals rw [ht]
  · exact h.nodes
  · exact h.nums
  · exact h.ne
  · exact hs
  · unfold fileSz
    rw [content_congr fun b _ => congrFun (congrFun hd b.cid) b.bid]
    exact h.size

theorem FreeOk.congr {s' : St} (h : FreeOk a s f cl) (ht : tab a s'.dev = tab a s.dev)
    (hd : data a s'.dev = data a s.dev) (hfs : s'.fsTable = s.fsTable)
    (hc : CacheOk s'.clrsCache f cl) : FreeOk a s' f cl := by
  refine ⟨?_, ?_, hc, ?_⟩
  · rw [hfs]
    exact h.stored.views hd
  · unfold SecOwned
    rw [ht, hfs]
    exact h.owned
  · rw [ht]
    exact h.none

theorem FileOk.memory {s' : St} (h : FileOk a s f cl) (hd : s'.dev = s.dev)
    (ht : s'.fsTable = s.fsTable) (hc : CacheOk s'.clrsCache f cl)
    (hs : ∀ l, s'.mapSeq f = some l → l.Perm (nodesAt a (tab a s.dev) f)) : FileOk a s' f cl :=
  h.congr (by rw [hd]) (by rw [hd]) ht hc hs

theorem FreeOk.memory {s' : St} (h : FreeOk a s f cl) (hd : s'.dev = s.dev)
    (ht : s'.fsTable = s.fsTable) (hc : CacheOk s'.clrsCache f cl) : FreeOk a s' f cl :=
  h.congr (by rw [hd]) (by rw [hd]) ht hc

end FileOk

/-! ### Looking it up -/

section Lookup
variable {a : Args} {s : St} {f g : ℤ} {cl : List ℤ}

/-- The state after a lookup. -/
def looked (s : St) (f : ℤ) (c : ClrsCache) (l : List BlkInfo) : St :=
  cacheSeqAdd { s with clrsCache := c } f l

theorem nodesAt_root (a : Args) (T : ℤ → Fin 7 → BlkEnt) : nodesAt a T 0 = nodesOf (T 0) 0 0 := by
  unfold nodesAt ownNodes
  rw [clustersOf_root, List.flatMap_singleton]

/-- **A lookup gives the blocks of the file**, and the caches change to what agrees. -/
theorem FileOk.lookup (hm : Mounted a s.dev) (h : FileOk a s f cl) :
    ∃ l c, devGetFileSeq a s f = some (l, looked s f c l) ∧
      l.Perm (nodesAt a (tab a s.dev) f) ∧ (c = s.clrsCache ∨ Loaded c f cl) := by
  cases hseq : s.mapSeq f with
  | some l =>
    refine ⟨l, s.clrsCache, ?_, h.cached l hseq, Or.inl rfl⟩
    rw [devGetFileSeq_cached hseq]
    unfold looked cacheSeqAdd
    rw [← hseq, Function.update_eq_self]
  | none =>
    by_cases hf : f = 0
    · subst hf
      obtain ⟨hroot, rfl⟩ := h.root rfl
      have hne := h.ne
      rw [nodesAt_root] at hne ⊢
      obtain ⟨c, hop, hl⟩ := devGetFileSeq_root hroot hm h.cluCnt_pos h.cache hseq hne
      exact ⟨_, c, hop, sortNodes_perm _, Or.inr hl⟩
    · obtain ⟨c, hl, hop⟩ := devGetFileSeq_rebuild hm hf (h.stored hf) h.cache hseq
      have hne : ownNodes (tab a s.dev) f cl ≠ [] := fun hnil =>
        h.ne (hnil ▸ h.nodes).symm.eq_nil
      rw [if_neg hne] at hop
      exact ⟨_, c, hop, (sortNodes_perm _).trans h.nodes, Or.inr hl⟩

theorem FileOk.looked_self {c : ClrsCache} {l : List BlkInfo} (h : FileOk a s f cl)
    (hl : l.Perm (nodesAt a (tab a s.dev) f)) (hc : c = s.clrsCache ∨ Loaded c f cl) :
    FileOk a (looked s f c l) f cl := by
  refine h.memory rfl rfl ?_ fun l' hl' => ?_
  · rcases hc with rfl | hc
    · exact h.cache
    · exact hc.cacheOk
  · have heq : (looked s f c l).mapSeq f = some l := Function.update_self _ _ _
    obtain rfl := Option.some.inj (heq.symm.trans hl')
    exact hl

theorem cacheOk_looked {c : ClrsCache} {l : List BlkInfo} {cl' : List ℤ} (hne : g ≠ f)
    (hc : c = s.clrsCache ∨ c.fid = f) (h : CacheOk s.clrsCache g cl') :
    CacheOk (looked s f c l).clrsCache g cl' := by
  rcases hc with rfl | hc
  · exact h
  · exact CacheOk.of_ne fun heq => hne (heq.symm.trans hc)

theorem FileOk.looked_other {c : ClrsCache} {l : List BlkInfo} {cl' : List ℤ}
    (h : FileOk a s g cl') (hne : g ≠ f) (hc : c = s.clrsCache ∨ c.fid = f) :
    FileOk a (looked s f c l) g cl' := by
  refine h.memory rfl rfl (cacheOk_looked hne hc h.cache) fun l' hl' => ?_
  have heq : (looked s f c l).mapSeq g = s.mapSeq g := Function.update_of_ne hne _ _
  exact h.cached l' (heq.symm.trans hl')

/-- **After the lookup the file can grow.** -/
theorem FileOk.growable {c : ClrsCache} {l : List BlkInfo} (h : FileOk a s f cl)
    (hag : Agree a s.dev s.fsBitmap) (h0 : 0 < f) (hf : f < tableLen)
    (hl : l.Perm (nodesAt a (tab a s.dev) f)) (hc : c = s.clrsCache ∨ Loaded c f cl) :
    Growable a (looked s f c l) f l cl := by
  have hne : f ≠ 0 := by omega
  have h' := h.looked_self hl hc
  refine ⟨h'.stored hne, ?_, h'.cache, h'.owned.apart (u32_fid h0 hf).2, h.fileSeq hag h0 hf hl⟩
  rintro rfl
  exact h.ne h.nodes.symm.eq_nil

theorem FreeOk.lookup (hm : Mounted a s.dev) (hf : f ≠ 0)
    (h : FreeOk a s f cl) {l : List BlkInfo} {t : St} (hop : devGetFileSeq a s f = some (l, t)) :
    t = s := by
  cases hseq : s.mapSeq f with
  | some l' =>
    rw [devGetFileSeq_cached hseq] at hop
    exact (Prod.mk.inj (Option.some.inj hop)).2.symm
  | none =>
    obtain ⟨c, -, hop'⟩ := devGetFileSeq_rebuild hm hf h.stored h.cache hseq
    have hnil : ownNodes (tab a s.dev) f cl = [] := by
      refine List.eq_nil_iff_forall_not_mem.mpr fun b hb => ?_
      obtain ⟨hcid, i, -, hfid, -⟩ := mem_ownNodes.mp hb
      have hr := h.stored.range _ hcid
      exact h.none _ (by omega) hr.2 i hfid
    rw [hop, if_pos hnil] at hop'
    cases hop'

end Lookup

/-- **The root in order**, from its entry and its cluster. -/
theorem fileOk_root (hm : Mounted a s.dev) (hclu : 0 < a.cluCnt) (hroot : RootEntry s.fsTable)
    (htab : ∀ i, tab a s.dev 0 i = ⟨0, UInt32.ofNat i⟩) (hcache : CacheOk s.clrsCache 0 [0])
    (hseq : ∀ l, s.mapSeq 0 = some l → l.Perm rootNodes)
    (hsize : 4 + leNat 4 (a.ciph.decrypt a.lblkSz (data a s.dev 0 1)) ≤ 7 * a.lblkSz) :
    FileOk a s 0 [0] := by
  have hL : 1024 ≤ a.lblkSz := hm.geo.le_lblkSz
  have hnodes : nodesAt a (tab a s.dev) 0 = rootNodes := by
    rw [nodesAt_root, nodesOf_root htab]
  have hok : SeqOk a rootNodes := seqOk_root hclu (List.Perm.refl _)
  have hmem : (⟨0, 1, 0⟩ : BlkInfo) ∈ rootNodes := by decide
  refine ⟨fun _ => ⟨hroot, rfl⟩, fun h => absurd rfl h, Or.inl ?_, hcache, ?_, ?_, ?_, ?_, ?_⟩
  · unfold secAddr
    rw [hroot.sec]
    rfl
  · unfold nodesAt
    rw [clustersOf_root]
  all_goals rw [hnodes]
  · exact hok.nums
  · decide
  · exact hseq
  · unfold fileSz
    rw [leNat_content hok (by omega) _ hmem rfl]
    exact hsize

/-! ### Work on another file -/

section Others
variable {a : Args} {s s' : St} {f g : ℤ} (h : OnFile a f s s') (hf0 : 0 ≤ f) (hf : f < tableLen)
  (hne : g ≠ f)
include h hf0 hf hne

theorem nodesAt_other (hg0 : 0 ≤ g) (hg : g < tableLen) :
    nodesAt a (tab a s'.dev) g = nodesAt a (tab a s.dev) g := by
  by_cases hz : g = 0
  · subst hz
    rw [nodesAt_root, nodesAt_root, funext fun i => h.tab_root i]
  · exact h.ownNodes (foreign_of_lt hf0 hf (by omega) hg hne) _

theorem content_other (hg0 : 0 ≤ g) (hg : g < tableLen) (hsec : SecOwned a s f) :
    content a s'.dev (nodesAt a (tab a s.dev) g) = content a s.dev (nodesAt a (tab a s.dev) g) := by
  refine content_congr fun b hb => ?_
  by_cases hz : g = 0
  · subst hz
    rw [nodesAt_root] at hb
    obtain ⟨hcid, -⟩ := mem_nodesOf.mp hb
    rw [hcid]
    exact h.data_root (Ne.symm hne) _
  · obtain ⟨⟨h1, hc⟩, i, hi, hfid, -⟩ := (mem_nodesAt hz).mp hb
    exact h.data_owned (p := blkOf b) (foreign_of_lt hf0 hf (by omega) hg hne) hsec
      ⟨by simp only [blkOf]; omega, hc, i, hi, hfid⟩ h1

theorem stored_other {cl : List ℤ} (hL : 1024 ≤ a.lblkSz) (hst : Stored a s.dev s.fsTable g cl)
    (hown : SecOwned a s g)
    (hdis : secAddr s.fsTable g ≠ 0 → secAddr s.fsTable g ≠ secAddr s.fsTable f) :
    Stored a s'.dev s'.fsTable g cl := by
  have haddr : 13 < cl.length → secAddr s.fsTable g ≠ 0 := fun hlong => by
    have := (hst.long hlong).pos
    omega
  exact h.stored hf0 hf hne hst (fun hlong => hown.resolve_left (haddr hlong))
    (fun hlong => hdis (haddr hlong)) hL

/-- **Work on one file leaves another in order.** -/
theorem FileOk.of_onFile {cl : List ℤ} (hL : 1024 ≤ a.lblkSz) (hsec : SecOwned a s f)
    (hdis : secAddr s.fsTable g ≠ 0 → secAddr s.fsTable g ≠ secAddr s.fsTable f) (hg0 : 0 ≤ g)
    (hg : g < tableLen) (hok : FileOk a s g cl) : FileOk a s' g cl := by
  have hnodes := nodesAt_other h hf0 hf hne hg0 hg
  have hown : ownNodes (tab a s'.dev) g cl = ownNodes (tab a s.dev) g cl := by
    by_cases hz : g = 0
    · rw [(hok.root hz).2, hz]
      refine ownNodes_congr fun c hc => ?_
      rw [List.mem_singleton.mp hc]
      exact funext fun i => h.tab_root i
    · exact h.ownNodes (foreign_of_lt hf0 hf (by omega) hg hne) _
  refine ⟨fun hz => ?_, fun hz => stored_other h hf0 hf hne hL (hok.stored hz) hok.owned hdis,
    h.secOwned hf0 hf hne hok.owned, h.cacheOk hne hok.cache, ?_, ?_, ?_, fun l hl => ?_, ?_⟩
  · obtain ⟨hroot, hcl⟩ := hok.root hz
    have hent := h.others g hne
    rw [hz] at hent
    exact ⟨⟨by rw [hent]; exact hroot.slot, by rw [hent]; exact hroot.sec⟩, hcl⟩
  · rw [hnodes, hown]
    exact hok.nodes
  · rw [hnodes]
    exact hok.nums
  · rw [hnodes]
    exact hok.ne
  · rw [hnodes]
    exact hok.cached l ((h.seqs g hne).symm.trans hl)
  · unfold fileSz
    rw [hnodes, content_other h hf0 hf hne hg0 hg hsec]
    exact hok.size

theorem FreeOk.of_onFile {cl : List ℤ} (hL : 1024 ≤ a.lblkSz)
    (hdis : secAddr s.fsTable g ≠ 0 → secAddr s.fsTable g ≠ secAddr s.fsTable f) (hg0 : 0 < g)
    (hg : g < tableLen) (hok : FreeOk a s g cl) : FreeOk a s' g cl := by
  refine ⟨stored_other h hf0 hf hne hL hok.stored hok.owned hdis, h.secOwned hf0 hf hne hok.owned,
    h.cacheOk hne hok.cache, fun c h0 hc i hfid => ?_⟩
  exact hok.none c h0 hc i ((h.entry (foreign_of_lt hf0 hf hg0 hg hne) c i).1.mp hfid)

end Others

end Fcfs.Vol
