import Fcfs.Vol.Pages

/-! # Consistent volumes

What the driver's memory and the volume have to say about each other before an operation:
`Consistent`. The bitmap agrees with the cluster tables, the root has the blocks of cluster 0, the
block list of every file, whether it is cached or rebuilt, names the blocks that carry the file's
identifier (`FileSeq`), a file's size fits into its blocks, and the cluster-list cache holds what is
stored. -/

namespace Fcfs.Vol

open Lib.Bytes Lib.Paged

/-- A file: an entry of the table with links. -/
structure Live (t : FcfsTable) (f : ℤ) : Prop where
  nonneg : 0 ≤ f
  lt : f < tableLen
  lnk : (t.entrs f).lnkCnt ≠ 0

theorem fid_range {t : FcfsTable} {f : ℤ} (hf : f = 0 ∨ Live t f) : 0 ≤ f ∧ f < tableLen := by
  rcases hf with rfl | hlive
  · decide
  · exact ⟨hlive.nonneg, hlive.lt⟩

/-- The block carries the identifier. -/
def Owns (a : Args) (T : ℤ → Fin 7 → BlkEnt) (f : ℤ) (p : ℤ × ℕ) : Prop :=
  0 ≤ p.1 ∧ p.1 < a.cluCnt ∧ ∃ i : Fin 7, p.2 = i.val + 1 ∧ (T p.1 i).fid = u32 f

/-- **The block list of a file**: each block that carries its identifier once, none of them in the
root's cluster, numbered from 0. -/
structure FileSeq (a : Args) (T : ℤ → Fin 7 → BlkEnt) (f : ℤ) (l : List BlkInfo) : Prop where
  mem : ∀ p, p ∈ l.map blkOf ↔ Owns a T f p
  pos : ∀ b ∈ l, 1 ≤ b.cid
  nodup : (l.map blkOf).Nodup
  nums : (l.map BlkInfo.num).Perm (List.range l.length)
  ne : l ≠ []

theorem FileSeq.owns {a : Args} {T : ℤ → Fin 7 → BlkEnt} {f : ℤ} {l : List BlkInfo}
    (h : FileSeq a T f l) {b : BlkInfo} (hb : b ∈ l) : Owns a T f (blkOf b) :=
  (h.mem _).mp (List.mem_map_of_mem hb)

theorem FileSeq.seqOk {a : Args} {T : ℤ → Fin 7 → BlkEnt} {f : ℤ} {l : List BlkInfo}
    (h : FileSeq a T f l) : SeqOk a l := by
  refine ⟨fun b hb => ?_, h.nodup, h.nums⟩
  obtain ⟨h0, hc, i, hi, -⟩ := h.owns hb
  have hbid : b.bid = i.val + 1 := hi
  exact ⟨h0, hc, by omega, by omega⟩

/-- **The nodes of its clusters** in any order are the list of a file, if they are numbered from 0. -/
theorem fileSeq_ownNodes {a : Args} {T : ℤ → Fin 7 → BlkEnt} {f : ℤ} {cl : List ℤ} {l : List BlkInfo}
    (hl : l.Perm (ownNodes T f cl)) (hrange : ∀ c ∈ cl, 1 ≤ c ∧ c < a.cluCnt)
    (hall : ∀ c : ℤ, 0 ≤ c → c < a.cluCnt → ∀ i, (T c i).fid = u32 f → c ∈ cl)
    (hnd : ((ownNodes T f cl).map blkOf).Nodup)
    (hnums : ((ownNodes T f cl).map BlkInfo.num).Perm (List.range (ownNodes T f cl).length))
    (hne : ownNodes T f cl ≠ []) : FileSeq a T f l := by
  refine ⟨fun p => ?_, fun b hb => ?_, (hl.map blkOf).nodup_iff.mpr hnd, ?_, fun h => ?_⟩
  · rw [(hl.map blkOf).mem_iff, List.mem_map]
    constructor
    · rintro ⟨b, hb, rfl⟩
      obtain ⟨hcid, i, hi, hf, -⟩ := mem_ownNodes.mp hb
      have hr := hrange _ hcid
      exact ⟨by simp only [blkOf]; omega, hr.2, i, hi, hf⟩
    · rintro ⟨h0, hc, i, hi, hf⟩
      exact ⟨⟨p.1, p.2, (T p.1 i).num.toNat⟩,
        mem_ownNodes.mpr ⟨hall p.1 h0 hc i hf, i, hi, hf, rfl⟩, rfl⟩
  · exact (hrange _ (mem_ownNodes.mp (hl.mem_iff.mp hb)).1).1
  · rw [hl.length_eq]
    exact (hl.map BlkInfo.num).trans hnums
  · rw [h] at hl
    exact hne hl.symm.eq_nil

/-- The nodes of the root's list. -/
def rootNodes : List BlkInfo := (List.finRange 7).map fun i => ⟨0, i.val + 1, i.val⟩

theorem nodesOf_root {e : Fin 7 → BlkEnt} (h : ∀ i, e i = ⟨0, UInt32.ofNat i⟩) :
    nodesOf e 0 0 = rootNodes := by
  obtain rfl : e = fun i => ⟨0, UInt32.ofNat i⟩ := funext h
  decide

theorem seqOk_root {a : Args} (hclu : 0 < a.cluCnt) {l : List BlkInfo} (hl : l.Perm rootNodes) :
    SeqOk a l := by
  refine ⟨fun b hb => ?_, (hl.map blkOf).nodup_iff.mpr (by decide), ?_⟩
  · obtain ⟨i, -, rfl⟩ := List.mem_map.mp (hl.mem_iff.mp hb)
    exact ⟨le_refl 0, by simp only; omega, by simp only; omega, by simp only; omega⟩
  · rw [hl.length_eq]
    exact (hl.map BlkInfo.num).trans (List.Perm.of_eq (by decide))

/-- The list `dev_get_file_seq` builds when the cache does not have one. -/
def Rebuilt (a : Args) (s : St) (f : ℤ) (l : List BlkInfo) : Prop :=
  ∃ t, devGetFileSeq a (cacheSeqRm s f) f = some (l, t)

/-- The list of a file, cached or rebuilt. -/
def SeqOf (a : Args) (s : St) (f : ℤ) (l : List BlkInfo) : Prop :=
  s.mapSeq f = some l ∨ Rebuilt a s f l

/-- **The cluster-list cache holds what is stored**, as far as it holds anything of a file. -/
structure CacheAgrees (a : Args) (s : St) : Prop where
  dir : s.clrsCache.fid = 0 ∨ Live s.fsTable s.clrsCache.fid → s.clrsCache.s0Cnt ≠ 0 →
    s.clrsCache.s0Cnt = (devTblLoadFir s s.clrsCache.fid).1 ∧
      ∀ i < s.clrsCache.s0Cnt, s.clrsCache.s0Cl i = (devTblLoadFir s s.clrsCache.fid).2 i
  sec : s.clrsCache.fid = 0 ∨ Live s.fsTable s.clrsCache.fid → s.clrsCache.s1Cnt ≠ 0 →
    secAddr s.fsTable s.clrsCache.fid ≠ 0 ∧
      ∃ w, devTblLoadSec a s.dev (secAddr s.fsTable s.clrsCache.fid) = some (s.clrsCache.s1Cnt, w) ∧
        ∀ j < s.clrsCache.s1Cnt, j < secCap a → s.clrsCache.s1Cl j = w j

/-- The root's list of clusters has one element, so the cache can hold nothing else of the root. -/
theorem CacheAgrees.root {a : Args} {s : St} (h : CacheAgrees a s) (hroot : RootEntry s.fsTable) :
    CacheOk s.clrsCache 0 [0] := by
  refine ⟨fun hfid h0 => ?_, fun hfid h1 => ?_⟩
  · obtain ⟨hcnt, hw⟩ := h.dir (Or.inl hfid) h0
    have hload : devTblLoadFir s 0 = (1, Function.update s.clrsCache.s0Cl 0 0) := by
      unfold devTblLoadFir loadFirLoop
      rw [if_neg (by simp), hroot.slot]
      rfl
    rw [hfid, hload] at hcnt hw
    refine ⟨hcnt, fun i hi => ?_⟩
    obtain rfl : i = 0 := Nat.lt_one_iff.mp hi
    rw [hw 0 (by rw [hcnt]; exact Nat.one_pos)]
    rfl
  · obtain ⟨hne, -⟩ := h.sec (Or.inl hfid) h1
    rw [hfid] at hne
    exact absurd hroot.secAddr_eq hne

/-- **A consistent state.** -/
structure Consistent (a : Args) (s : St) : Prop where
  bit : ∀ c : ℤ, 0 ≤ c → c < a.cluCnt →
    (full s.fsBitmap c = true ↔ ∀ i, (tab a s.dev c i).fid ≠ 0)
  rootTab : ∀ i, tab a s.dev 0 i = ⟨0, UInt32.ofNat i⟩
  rootSeq : ∀ l, SeqOf a s 0 l → l.Perm rootNodes
  files : ∀ f, Live s.fsTable f → f ≠ 0 → ∀ l, SeqOf a s f l → FileSeq a (tab a s.dev) f l
  rebuilt : ∀ f, f = 0 ∨ Live s.fsTable f → ∃ l, Rebuilt a s f l
  sizes : ∀ f, f = 0 ∨ Live s.fsTable f → ∀ l, SeqOf a s f l →
    4 + leNat 4 (content a s.dev l) ≤ l.length * a.lblkSz
  cache : CacheAgrees a s

/-- The size in the header of a file is the one in its block 0. -/
theorem leNat_content {a : Args} {l : List BlkInfo} (h : SeqOk a l) (hL : 4 ≤ a.lblkSz) (d : Dev)
    {b : BlkInfo} (hb : b ∈ l) (hnum : b.num = 0) :
    leNat 4 (content a d l) = leNat 4 (a.ciph.decrypt a.lblkSz (data a d b.cid b.bid)) := by
  refine leNat_congr fun i hi => ?_
  unfold content
  rw [← page_of_mem h d hb, hnum, ← Nat.zero_add i, ← Nat.zero_mul a.lblkSz,
    flat_page _ _ (by omega), Nat.zero_mul, Nat.zero_add]

/-- **Without caches** there is only one list to look at for every file. -/
theorem Consistent.of_uncached {a : Args} {s : St} (hm : Mounted a s.dev) (hclu : 0 < a.cluCnt)
    (hseq : ∀ f, s.mapSeq f = none) (h0 : s.clrsCache.s0Cnt = 0) (h1 : s.clrsCache.s1Cnt = 0)
    (hroot : RootEntry s.fsTable)
    (hbit : ∀ c : ℤ, 0 ≤ c → c < a.cluCnt →
      (full s.fsBitmap c = true ↔ ∀ i, (tab a s.dev c i).fid ≠ 0))
    (htab : ∀ i, tab a s.dev 0 i = ⟨0, UInt32.ofNat i⟩)
    (hsize : 4 + leNat 4 (a.ciph.decrypt a.lblkSz (data a s.dev 0 1)) ≤ 7 * a.lblkSz)
    (hfiles : ∀ f, Live s.fsTable f → f ≠ 0 → ∃ l t, devGetFileSeq a s f = some (l, t) ∧
      FileSeq a (tab a s.dev) f l ∧ 4 + leNat 4 (content a s.dev l) ≤ l.length * a.lblkSz) :
    Consistent a s := by
  have hL : 1024 ≤ a.lblkSz := hm.geo.le_lblkSz
  have hcache : CacheAgrees a s := ⟨fun _ h => absurd h0 h, fun _ h => absurd h1 h⟩
  have hnodes := nodesOf_root htab
  obtain ⟨c, hlook, -⟩ := devGetFileSeq_root hroot hm hclu (hcache.root hroot) (hseq 0)
    (by rw [hnodes]; decide)
  -- every list there is comes from the lookup
  have honly : ∀ {f l}, SeqOf a s f l → ∃ t, devGetFileSeq a s f = some (l, t) := by
    rintro f l (h | ⟨t, ht⟩)
    · rw [hseq] at h
      cases h
    · rw [cacheSeqRm_of_none (hseq f)] at ht
      exact ⟨t, ht⟩
  have hroots : ∀ l, SeqOf a s 0 l → l.Perm rootNodes := by
    intro l hl
    obtain ⟨t, ht⟩ := honly hl
    rw [hlook, hnodes] at ht
    rw [← (Prod.mk.inj (Option.some.inj ht)).1]
    exact sortNodes_perm _
  have hsame : ∀ {f l l' t t'}, devGetFileSeq a s f = some (l, t) →
      devGetFileSeq a s f = some (l', t') → l' = l := by
    intro f l l' t t' h h'
    exact (Prod.mk.inj (Option.some.inj (h'.symm.trans h))).1
  refine ⟨hbit, htab, hroots, fun f hf hf0 l hl => ?_, fun f hf => ?_, fun f hf l hl => ?_, hcache⟩
  · obtain ⟨l', t', ht', hfile, -⟩ := hfiles f hf hf0
    obtain ⟨t, ht⟩ := honly hl
    rw [hsame ht' ht]
    exact hfile
  · unfold Rebuilt
    rw [cacheSeqRm_of_none (hseq f)]
    by_cases hf0 : f = 0
    · rw [hf0]
      exact ⟨_, _, hlook⟩
    · obtain ⟨l', t', ht', -⟩ := hfiles f (hf.resolve_left hf0) hf0
      exact ⟨l', t', ht'⟩
  · by_cases hf0 : f = 0
    · rw [hf0] at hl
      have hperm := hroots l hl
      have hmem : (⟨0, 1, 0⟩ : BlkInfo) ∈ l := hperm.mem_iff.mpr (by decide)
      rw [leNat_content (seqOk_root hclu hperm) (by omega) _ hmem rfl, hperm.length_eq]
      exact hsize
    · obtain ⟨l', t', ht', -, hle⟩ := hfiles f (hf.resolve_left hf0) hf0
      obtain ⟨t, ht⟩ := honly hl
      rw [hsame ht' ht]
      exact hle

section Consistent
variable {a : Args} {s : St} (hc : Consistent a s)
include hc

theorem Consistent.cluCnt_pos : 0 < a.cluCnt := by
  by_contra hz
  have h1 := hc.rootTab 1
  unfold tab ctable at h1
  rw [if_neg (by omega)] at h1
  exact absurd (congrArg BlkEnt.num h1) (by decide)

theorem Consistent.seqOk {f : ℤ} (hf : f = 0 ∨ Live s.fsTable f) {l : List BlkInfo}
    (hl : SeqOf a s f l) : SeqOk a l := by
  by_cases hf0 : f = 0
  · subst hf0
    exact seqOk_root hc.cluCnt_pos (hc.rootSeq l hl)
  · exact (hc.files f (hf.resolve_left hf0) hf0 l hl).seqOk

theorem Consistent.agree : Agree a s.dev s.fsBitmap := by
  refine ⟨fun c h0 hlt => ?_, fun i => ?_⟩
  · rw [Bool.eq_iff_iff, hc.bit c h0 hlt]
    exact decide_eq_true_iff.symm
  · rw [hc.rootTab]

theorem Consistent.cacheOk (hm : Mounted a s.dev) {f : ℤ} {cl : List ℤ} (hf : f ≠ 0)
    (hlive : Live s.fsTable f) (hst : Stored a s.dev s.fsTable f cl) :
    CacheOk s.clrsCache f cl := by
  have hload := loadFirLoop_eq hf hst.slots (fun c hcl => by have := hst.range c hcl; omega) 13
    s.clrsCache.s0Cl rfl (Nat.zero_le _) (fun i hi => by omega)
  refine ⟨fun hfid h0 => ?_, fun hfid h1 => ?_⟩
  · obtain ⟨hcnt, hw⟩ := hc.cache.dir (Or.inr (hfid ▸ hlive)) h0
    rw [hfid] at hcnt hw
    have hcnt' : s.clrsCache.s0Cnt = min 13 cl.length := hcnt.trans hload.1
    refine ⟨hcnt', fun i hi => ?_⟩
    rw [hw i (by omega)]
    exact hload.2 i hi
  · obtain ⟨hne, w, hsec, hw⟩ := hc.cache.sec (Or.inr (hfid ▸ hlive)) h1
    rw [hfid] at hne hsec
    have hlong : 13 < cl.length := by
      by_contra hshort
      exact hne (hst.short (by omega))
    have hclu := hst.long hlong
    have hpos := hclu.pos
    have hdrop : (cl.drop 13).length = cl.length - 13 := List.length_drop
    have hcap := hst.cap
    obtain ⟨w', hsec', hw'⟩ := (hst.words hlong).load hm (show 0 ≤ secAddr s.fsTable f by omega)
      hclu.lt (by omega)
    obtain ⟨hcnt', rfl⟩ := Prod.mk.inj (Option.some.inj (hsec.symm.trans hsec'))
    refine ⟨by omega, fun j hj => ?_⟩
    rw [hw j (by omega) (by omega), hw' j (by omega), getD_drop]

end Consistent

/-! ### Sample volumes -/

section Seven
variable {T : ℕ → Fin 7 → BlkEnt} {D : ℕ → ℕ → Buf} {bm : UInt8} {entrs : ℤ → TableEntry} {f : ℤ}
  {cl : List ℤ}

/-- The nodes of the blocks of a file, from the tables as they are given. -/
def sevenNodes (T : ℕ → Fin 7 → BlkEnt) (f : ℤ) (cl : List ℤ) : List BlkInfo :=
  ownNodes (fun c => T c.toNat) f cl

theorem ownNodes_sevenSt (hrange : ∀ c ∈ cl, 1 ≤ c ∧ c < sevenArgs.cluCnt) :
    ownNodes (tab sevenArgs (sevenSt T D bm entrs).dev) f cl = sevenNodes T f cl := by
  refine ownNodes_congr fun c hc => ?_
  obtain ⟨h1, hlt⟩ := hrange c hc
  rw [cluCnt_sevenArgs] at hlt
  exact tab_sevenSt T D bm entrs (by omega) hlt

/-- A file on a sample volume whose clusters have its blocks, numbered from 0. -/
theorem fileSeq_sevenSt {l : List BlkInfo} (hl : l.Perm (sevenNodes T f cl))
    (hrange : ∀ c ∈ cl, 1 ≤ c ∧ c < sevenArgs.cluCnt)
    (hall : ∀ n < 7, ∀ i, (T n i).fid = u32 f → (n : ℤ) ∈ cl)
    (hnd : ((sevenNodes T f cl).map blkOf).Nodup)
    (hnums : ((sevenNodes T f cl).map BlkInfo.num).Perm (List.range (sevenNodes T f cl).length))
    (hne : sevenNodes T f cl ≠ []) :
    FileSeq sevenArgs (tab sevenArgs (sevenSt T D bm entrs).dev) f l := by
  have hnodes : ownNodes (tab sevenArgs (sevenSt T D bm entrs).dev) f cl = sevenNodes T f cl :=
    ownNodes_sevenSt hrange
  refine fileSeq_ownNodes (by rw [hnodes]; exact hl) hrange (fun c h0 hc i hi => ?_)
    (by rw [hnodes]; exact hnd) (by rw [hnodes]; exact hnums) (by rw [hnodes]; exact hne)
  rw [cluCnt_sevenArgs] at hc
  have hlt : c < 7 := hc
  rw [tab_sevenSt T D bm entrs h0 hlt] at hi
  have hmem := hall c.toNat (by omega) i hi
  rwa [Int.toNat_of_nonneg h0] at hmem

theorem lookup_sevenSt (hf : f ≠ 0)
    (hst : Stored sevenArgs (sevenSt T D bm entrs).dev (sevenSt T D bm entrs).fsTable f cl)
    (hne : sevenNodes T f cl ≠ []) :
    ∃ t, devGetFileSeq sevenArgs (sevenSt T D bm entrs) f =
      some (sortNodes (sevenNodes T f cl), t) := by
  obtain ⟨c, -, hop⟩ := devGetFileSeq_rebuild (s := sevenSt T D bm entrs) (mounted_sevenSt T D bm entrs)
    hf hst ⟨fun _ h => absurd rfl h, fun _ h => absurd rfl h⟩ rfl
  rw [ownNodes_sevenSt hst.range, if_neg hne] at hop
  exact ⟨_, hop⟩

theorem content_sevenSt {l : List BlkInfo} (hl : SeqOk sevenArgs l) {b : BlkInfo} (hb : b ∈ l)
    (hnum : b.num = 0) {i : ℕ} (hi : i < 1024) :
    content sevenArgs (sevenSt T D bm entrs).dev l i = D b.cid.toNat b.bid i := by
  obtain ⟨h0, hc, h1, h7⟩ := hl.inVol b hb
  rw [cluCnt_sevenArgs] at hc
  have hpage := page_of_mem hl (sevenSt T D bm entrs).dev hb
  rw [hnum, data_sevenSt T D bm entrs h0 hc h1 h7] at hpage
  have hflat := flat_page (page sevenArgs (sevenSt T D bm entrs).dev l) 0
    (show i < sevenArgs.lblkSz by rw [lblkSz_sevenArgs]; exact hi)
  rw [Nat.zero_mul, Nat.zero_add, hpage] at hflat
  refine hflat.trans ?_
  show cut sevenArgs.lblkSz (cut 1024 (D b.cid.toNat b.bid)) i = _
  rw [lblkSz_sevenArgs, cut_of_lt _ hi, cut_of_lt _ hi]

theorem size_sevenSt {l : List BlkInfo} (hl : SeqOk sevenArgs l) {b : BlkInfo} (hb : b ∈ l)
    (hnum : b.num = 0) : leNat 4 (content sevenArgs (sevenSt T D bm entrs).dev l) =
      leNat 4 (D b.cid.toNat b.bid) :=
  leNat_congr fun _ hi => content_sevenSt hl hb hnum (by omega)

theorem freeBlks_sevenSt : freeBlks sevenArgs (tab sevenArgs (sevenSt T D bm entrs).dev) =
    freeUpTo (fun c => T c.toNat) 6 := by
  unfold freeBlks freeUpTo
  rw [cluCnt_sevenArgs]
  refine List.flatMap_congr fun c hc => ?_
  have hlt : c < 6 := List.mem_range.mp hc
  unfold clusterBids
  rw [tab_sevenSt T D bm entrs (by omega) (by omega)]

/-- **A sample volume is consistent** if its bitmap and the lists of its files are. -/
theorem consistent_sevenSt (hroot : RootEntry ⟨UInt64.ofNat sizeofTable, entrs⟩)
    (htab : ∀ i, T 0 i = ⟨0, UInt32.ofNat i⟩)
    (hbit : ∀ n < 7, (full (sevenSt T D bm entrs).fsBitmap (n : ℕ) = true ↔ ∀ i, (T n i).fid ≠ 0))
    (hsize : 4 + leNat 4 (D 0 1) ≤ 7168)
    (hfiles : ∀ f, Live (sevenSt T D bm entrs).fsTable f → f ≠ 0 →
      ∃ l t, devGetFileSeq sevenArgs (sevenSt T D bm entrs) f = some (l, t) ∧
        FileSeq sevenArgs (tab sevenArgs (sevenSt T D bm entrs).dev) f l ∧
        ∃ b ∈ l, b.num = 0 ∧ 4 + leNat 4 (D b.cid.toNat b.bid) ≤ l.length * 1024) :
    Consistent sevenArgs (sevenSt T D bm entrs) := by
  refine Consistent.of_uncached (mounted_sevenSt T D bm entrs) (by decide) (fun _ => rfl) rfl rfl hroot
    (fun c h0 hc => ?_) (fun i => ?_) ?_ fun f hf hf0 => ?_
  · rw [cluCnt_sevenArgs] at hc
    have hlt : c < 7 := hc
    obtain ⟨n, rfl⟩ := Int.eq_ofNat_of_zero_le h0
    rw [tab_sevenSt T D bm entrs h0 hlt, Int.toNat_natCast]
    exact hbit n (by omega)
  · rw [tab_sevenSt T D bm entrs (le_refl 0) (by decide)]
    exact htab i
  · rw [data_sevenSt T D bm entrs (le_refl 0) (by decide) (le_refl 1) (by decide)]
    have hbytes : leNat 4 (sevenArgs.ciph.decrypt sevenArgs.lblkSz (cut 1024 (D (0 : ℤ).toNat 1))) =
        leNat 4 (D 0 1) := by
      refine leNat_congr fun i hi => ?_
      show cut sevenArgs.lblkSz (cut 1024 (D 0 1)) i = _
      rw [lblkSz_sevenArgs, cut_of_lt _ (by omega), cut_of_lt _ (by omega)]
    rw [hbytes, lblkSz_sevenArgs]
    exact hsize
  · obtain ⟨l, t, hop, hfile, b, hb, hnum, hle⟩ := hfiles f hf hf0
    refine ⟨l, t, hop, hfile, ?_⟩
    rw [size_sevenSt hfile.seqOk hb hnum, lblkSz_sevenArgs]
    exact hle

end Seven

end Fcfs.Vol
