import Fcfs.Vol.Alloc
import Fcfs.Vol.Fresh
import Fcfs.Vol.SeqOrder

/-! # Finding the block of a new file

The table entry has 16 bits for the number of a cluster (`slotClrs` is what is left of it), so a new file
is found again as long as the first cluster that is not full is one of the first 65536, and never
otherwise (`foundAgain_iff`). -/

namespace Fcfs.Vol

open Lib.Bytes

/-- The first cluster behind the root's that is not full. -/
structure FirstClear (a : Args) (bm : ℕ → UInt8) (c : ℤ) : Prop where
  pos : 1 ≤ c
  lt : c < a.cluCnt
  clear : full bm c = false
  below : ∀ c', 1 ≤ c' → c' < c → full bm c' = true

/-- The first free block of a cluster. -/
def FirstFree (e : Fin 7 → BlkEnt) (b : ℕ) : Prop :=
  ∃ i : Fin 7, b = i.val + 1 ∧ (e i).fid = 0 ∧ ∀ j < i, (e j).fid ≠ 0

/-- No cache has anything of the file. -/
structure Uncached (s : St) (f : ℤ) : Prop where
  seq : s.mapSeq f = none
  clrs : s.clrsCache.fid = f → s.clrsCache.s0Cnt = 0 ∧ s.clrsCache.s1Cnt = 0

/-- **The file is found again**: block `b` of cluster `c` is allocated to it and no other entry of a
cluster table changes, and whatever else has been cached, its list is rebuilt as this block. -/
def FoundAgain (a : Args) (s : St) (f c : ℤ) (b : ℕ) : Prop :=
  ∃ s', devFileAlloc a s f = some (0, s') ∧
    (∀ c' (i : Fin 7), (c', i.val + 1) ≠ (c, b) → tab a s'.dev c' i = tab a s.dev c' i) ∧
    ∀ t, t.dev = s'.dev → t.fsTable = s'.fsTable → Uncached t f →
      ∃ u, devGetFileSeq a t f = some ([⟨c, b, 0⟩], u)

/-! ### The first free block -/

section First
variable {a : Args} {T : ℤ → Fin 7 → BlkEnt}

theorem ownBids_first {e : Fin 7 → BlkEnt} {b : ℕ} (h : FirstFree e b) : ∃ bs, ownBids e 0 = b :: bs := by
  obtain ⟨i, rfl, hi, hlt⟩ := h
  have hsorted : ((List.finRange 7).filter fun i => u32 0 == (e i).fid).Pairwise (· < ·) :=
    (List.pairwise_lt_finRange 7).sublist List.filter_sublist
  have hmem : i ∈ (List.finRange 7).filter fun i => u32 0 == (e i).fid :=
    List.mem_filter.mpr ⟨List.mem_finRange i, beq_iff_eq.mpr hi.symm⟩
  unfold ownBids
  cases hl : (List.finRange 7).filter fun i => u32 0 == (e i).fid with
  | nil =>
    rw [hl] at hmem
    cases hmem
  | cons j js =>
    rw [hl] at hmem hsorted
    have hj : (e j).fid = 0 := by
      have hin : j ∈ (List.finRange 7).filter fun i => u32 0 == (e i).fid :=
        hl ▸ List.mem_cons_self ..
      exact (beq_iff_eq.mp (List.mem_filter.mp hin).2).symm
    rcases List.mem_cons.mp hmem with rfl | hin
    · exact ⟨_, List.map_cons⟩
    · exact absurd hj (hlt j ((List.pairwise_cons.mp hsorted).1 i hin))

theorem freeUpTo_nil {k : ℕ} (h : ∀ c : ℤ, 1 ≤ c → c ≤ k → taken (T c) = true) : freeUpTo T k = [] := by
  refine List.eq_nil_iff_forall_not_mem.mpr fun q hq => ?_
  obtain ⟨c, b⟩ := q
  obtain ⟨h1, hk, hb⟩ := mem_freeUpTo.mp hq
  rw [ownBids_free_nil.mpr (h c h1 hk)] at hb
  cases hb

/-- **The first block the allocator has.** -/
theorem freeBlks_first {d : Dev} {bm : ℕ → UInt8} (hag : Agree a d bm) {c : ℤ} {b : ℕ}
    (hc : FirstClear a bm c) (hb : FirstFree (tab a d c) b) : ∃ rest, freeBlks a (tab a d) = (c, b) :: rest := by
  have h1 := hc.pos
  have hlt := hc.lt
  obtain ⟨bs, hbs⟩ := ownBids_first hb
  have hnil : freeUpTo (tab a d) (c.toNat - 1) = [] := freeUpTo_nil fun c' h1' hle => by
    rw [← hag.bit c' (by omega) (by omega)]
    exact hc.below c' h1' (by omega)
  obtain ⟨rest, hrest⟩ := freeUpTo_prefix (tab a d) (show c.toNat - 1 + 1 ≤ a.cluCnt - 1 by omega)
  rw [freeUpTo_succ, hnil, List.nil_append, clusterBids, show ((c.toNat - 1 : ℕ) : ℤ) + 1 = c by omega,
    hbs] at hrest
  exact ⟨_, hrest.symm⟩

end First

/-! ### The lookup -/

section Slot
variable {a : Args} {s s' : St} {f : ℤ} {p : ℤ × ℕ}

/-- What a lookup finds with nothing cached: the blocks in the cluster in the slot. -/
theorem Alloced.lookup (h : Alloced a f p s s') (hf : f ≠ 0) (h1 : 1 ≤ p.1) (hc : p.1 < a.cluCnt) {t : St}
    (hdev : t.dev = s'.dev) (htab : t.fsTable = s'.fsTable) (hun : Uncached t f) :
    ∃ u, devGetFileSeq a t f = if ownNodes (tab a s'.dev) f (slotClrs p.1) = [] then none else
      some (sortNodes (ownNodes (tab a s'.dev) f (slotClrs p.1)), u) := by
  have hL : 1024 ≤ a.lblkSz := h.mounted.geo.le_lblkSz
  have hst := h.stored_slot h1 hc hL
  rw [← hdev, ← htab] at hst
  have hm : Mounted a t.dev := by
    rw [hdev]
    exact h.mounted
  have hcache : CacheOk t.clrsCache f (slotClrs p.1) :=
    ⟨fun hfid h0 => absurd (hun.clrs hfid).1 h0, fun hfid h0 => absurd (hun.clrs hfid).2 h0⟩
  obtain ⟨c, -, hop⟩ := devGetFileSeq_rebuild hm hf hst hcache hun.seq
  rw [hdev] at hop
  exact ⟨_, hop⟩

end Slot

section Again
variable {a : Args} {s : St} {f c : ℤ} {b : ℕ} (hv : VolOk a s) (hf : 0 < f) (hft : f < tableLen)
  (hfree : ¬ Live s.fsTable f) (hc : FirstClear a s.fsBitmap c) (hb : FirstFree (tab a s.dev c) b)
include hv hf hft hfree hc hb

/-- A number with more than 16 bits names another cluster, if any, and that has no block of the file. -/
theorem FirstClear.lost (hbig : 65536 ≤ c) : ¬ FoundAgain a s f c b := by
  rintro ⟨s', hop, -, hfound⟩
  have h1 := hc.pos
  have hlt := hc.lt
  obtain ⟨rest, hrest⟩ := freeBlks_first hv.agree hc hb
  obtain ⟨t, hop', hall⟩ := devFileAlloc_eq (f := f) hv.mounted hv.agree hrest
  obtain rfl : t = s' := (Prod.mk.inj (Option.some.inj (hop'.symm.trans hop))).2
  obtain ⟨cl, hdead⟩ := hv.free f hf hft hfree
  have hnil : ownNodes (tab a t.dev) f (slotClrs c) = [] := by
    refine List.eq_nil_iff_forall_not_mem.mpr fun x hx => ?_
    obtain ⟨hcid, i, -, hfid, -⟩ := mem_ownNodes.mp hx
    unfold slotClrs at hcid
    split_ifs at hcid with hz
    · cases hcid
    · have hcid' := List.mem_singleton.mp hcid
      have hne : x.cid ≠ c := by omega
      rw [hall.tabs, if_neg fun heq => hne (congrArg Prod.fst heq)] at hfid
      exact hdead.none x.cid (by omega) (by omega) i hfid
  obtain ⟨u, hdev, htab, hun⟩ : ∃ u : St, u.dev = t.dev ∧ u.fsTable = t.fsTable ∧ Uncached u f :=
    ⟨{ t with mapSeq := fun _ => none, clrsCache := { t.clrsCache with s0Cnt := 0, s1Cnt := 0 } }, rfl,
      rfl, rfl, fun _ => ⟨rfl, rfl⟩⟩
  obtain ⟨v, hseq⟩ := hfound u hdev htab hun
  obtain ⟨w, hseq'⟩ := hall.lookup (by omega) h1 hlt hdev htab hun
  rw [if_pos hnil, hseq] at hseq'
  cases hseq'

theorem FirstClear.found (hsmall : c < 65536) : FoundAgain a s f c b := by
  have h1 := hc.pos
  have hlt := hc.lt
  obtain ⟨rest, hrest⟩ := freeBlks_first hv.agree hc hb
  obtain ⟨s', hop, hall⟩ := devFileAlloc_eq (f := f) hv.mounted hv.agree hrest
  obtain ⟨cl, hdead⟩ := hv.free f hf hft hfree
  have hb17 : 1 ≤ b ∧ b ≤ 7 := by
    obtain ⟨i, rfl, -⟩ := hb
    omega
  have hnodes : ownNodes (tab a s'.dev) f [c] = [⟨c, b, 0⟩] := by
    have hperm := ownNodes_perm (T := tab a s'.dev) (a := a) (by omega : f ≠ 0) (List.nodup_singleton c)
      (fun x hx => by rw [List.mem_singleton.mp hx]; exact ⟨h1, hlt⟩) fun x hx1 hx i hfid => ?_
    · rw [hall.nodesAt (by omega) h1 hlt hb17 hdead.none] at hperm
      exact List.perm_singleton.mp hperm
    · rw [hall.tabs] at hfid
      by_cases hp : (x, i.val + 1) = (c, b)
      · exact List.mem_singleton.mpr (congrArg Prod.fst hp)
      · rw [if_neg hp] at hfid
        exact absurd hfid (hdead.none x (by omega) hx i)
  refine ⟨s', hop, fun c' i hne => by rw [hall.tabs, if_neg hne], fun t hdev htab hun => ?_⟩
  obtain ⟨u, hseq⟩ := hall.lookup (by omega) h1 hlt hdev htab hun
  rw [slotClrs_of_lt h1 hsmall, hnodes, if_neg (List.cons_ne_nil _ _),
    sortNodes_of_sorted (l := [⟨c, b, 0⟩]) trivial] at hseq
  exact ⟨u, hseq⟩

/-- **The new file is found again exactly when its cluster is one of the first 65536.** -/
theorem foundAgain_iff : FoundAgain a s f c b ↔ c < 65536 := by
  refine ⟨fun h => ?_, hc.found hv hf hft hfree hb⟩
  by_contra hbig
  exact hc.lost hv hf hft hfree hb (not_lt.mp hbig) h

end Again

/-! ### A volume with 65539 clusters -/

/-- The cluster tables when clusters 1 to `k - 1` are claimed. -/
def crowdedTab (k c : ℕ) (i : Fin 7) : BlkEnt :=
  if c = 0 then ⟨0, UInt32.ofNat i⟩ else if c < k then claimed i else ⟨0, 0⟩

/-- The memory of a driver that has mounted a volume on which clusters 1 to 65535 are claimed. -/
def crowdedSt (h : FcfsHead) : St where
  dev := sampleDev h (crowdedTab 65536) fun _ _ _ => 0
  fsBitmap := fun k => if k = 0 then 127 else if k < 8192 then 255 else 0
  fsTable := ⟨UInt64.ofNat sizeofTable, rootAnd fun _ => TableEntry.zero⟩
  clrsCache := ⟨-1, fun _ => 0, fun _ => 0, 0, 0⟩
  mapSeq := fun _ => none
  mapFid := fun _ => none

theorem full_crowdedSt (h : FcfsHead) {c : ℤ} (h0 : 0 ≤ c) :
    full (crowdedSt h).fsBitmap c = decide (1 ≤ c ∧ c < 65536) := by
  have h127 : ∀ j < 8, bitSet 127 j = decide (j ≠ 0) := by decide
  rw [full_of_nonneg _ h0]
  show bitSet (if c.toNat / 8 = 0 then 127 else if c.toNat / 8 < 8192 then 255 else 0) (c.toNat % 8) = _
  split_ifs with hz hlt
  · rw [h127 _ (by omega)]
    exact decide_eq_decide.mpr (by omega)
  · rw [bitSet_255 (by omega), eq_comm, decide_eq_true_iff]
    omega
  · rw [bitSet_zero, eq_comm, decide_eq_false_iff_not]
    omega

theorem tab_crowdedSt {h : FcfsHead} (hg : Geo h) {c : ℤ} (h0 : 0 ≤ c) (hc : c < (imageArgs h).cluCnt) :
    tab (imageArgs h) (crowdedSt h).dev c = crowdedTab 65536 c.toNat := tab_sample hg _ _ h0 hc

theorem fid_tab_out {a : Args} {d : Dev} {c : ℤ} (h : ¬ (0 ≤ c ∧ c < a.cluCnt)) (i : Fin 7) :
    (tab a d c i).fid = 0 := by
  unfold tab ctable
  rw [if_neg h]
  rfl

theorem bare_crowdedSt {h : FcfsHead} (hg : Geo h) (hclu : 0 < (imageArgs h).cluCnt) :
    Bare (imageArgs h) (crowdedSt h) := by
  have hL := hg.le_lblkSz
  have hzero : leNat 4 (fun _ => 0) = 0 := by decide
  have hfid : ∀ c : ℤ, 0 ≤ c → c < (imageArgs h).cluCnt → ∀ i, (tab (imageArgs h) (crowdedSt h).dev c i).fid =
      if 1 ≤ c ∧ c < 65536 then u32 (-1) else 0 := by
    intro c h0 hc i
    rw [tab_crowdedSt hg h0 hc]
    unfold crowdedTab
    by_cases hz : c = 0
    · rw [if_pos (by omega), if_neg (by omega)]
    · rw [if_neg (by omega)]
      by_cases hlt : c < 65536
      · rw [if_pos (by omega), if_pos (by omega)]
        rfl
      · rw [if_neg (by omega), if_neg (by omega)]
  refine ⟨mounted_sample hg _ _, hclu, ⟨fun c h0 hc => ?_, fun i => ?_⟩, fun i => ?_, fun c f h0 hf i heq => ?_,
    ⟨rfl, rfl⟩, fun f h0 _ => ?_, ?_, rfl, rfl, fun _ => rfl⟩
  · rw [full_crowdedSt h h0]
    by_cases hin : 1 ≤ c ∧ c < 65536
    · rw [decide_eq_true hin, eq_comm]
      refine decide_eq_true fun i => ?_
      rw [hfid c h0 hc, if_pos hin]
      decide
    · rw [decide_eq_false hin, eq_comm]
      exact taken_of_root fun i => by rw [hfid c h0 hc, if_neg hin]
  · rw [hfid 0 (le_refl 0) (by omega), if_neg (by omega)]
  · rw [tab_crowdedSt hg (le_refl 0) (by omega)]
    rfl
  · have hne := u32_fid h0 hf
    by_cases hin : 0 ≤ c ∧ c < (imageArgs h).cluCnt
    · rw [hfid c hin.1 hin.2] at heq
      split_ifs at heq
      · exact hne.2 heq.symm
      · exact hne.1 heq.symm
    · exact hne.1 (heq.symm.trans (fid_tab_out hin i))
  · have hent : (crowdedSt h).fsTable.entrs f = TableEntry.zero := if_neg (by omega)
    rw [hent]
    exact TableEntry.blank_zero
  · have hin : InVol (imageArgs h) 0 1 := ⟨le_refl 0, by omega, by decide⟩
    rw [crowdedSt, data_sample hg _ _ hin (le_refl 1)]
    refine Eq.trans (leNat_congr fun i hi => ?_) hzero
    have hdec : ∀ n b, (imageArgs h).ciph.decrypt n b = cut n b := plain_decrypt
    have hL' : i < (imageArgs h).lblkSz := lt_of_lt_of_le hi (le_trans (by decide) hL)
    have hL'' : i < h.lblkSz := hL'
    rw [hdec, cut_of_lt _ hL', cut_of_lt _ hL'']

/-- The header of a device of 1053000 sectors of 512 bytes. -/
def hugeHead : FcfsHead := fmtrHead 512 1053000 0 fun _ => 0

theorem geo_hugeHead : Geo hugeHead where
  toLayout := Persist.layout_fmtrHead (by decide) (by decide) (by unfold Fmtr.Geometry.Fits; decide)
  exact := by decide

theorem cluCnt_hugeHead : (imageArgs hugeHead).cluCnt = 65539 := by decide

/-- The allocator's cluster is the one behind those that are claimed. -/
theorem firstClear_huge : FirstClear (imageArgs hugeHead) (crowdedSt hugeHead).fsBitmap 65536 ∧
    FirstFree (tab (imageArgs hugeHead) (crowdedSt hugeHead).dev 65536) 1 := by
  have hclu := cluCnt_hugeHead
  refine ⟨⟨by decide, by rw [hclu]; decide, ?_, fun c' h1 hlt => ?_⟩, 0, rfl, ?_, fun j hj => absurd hj (by simp)⟩
  · rw [full_crowdedSt _ (by decide)]
    decide
  · rw [full_crowdedSt _ (by omega)]
    exact decide_eq_true ⟨h1, hlt⟩
  · rw [tab_crowdedSt geo_hugeHead (by decide) (by rw [hclu]; decide)]
    rfl

/-- A file in cluster 65536 is lost. -/
theorem not_foundAgain_of_volOk : ¬ ∀ (a : Args) (s : St) (f c : ℤ) (b : ℕ), VolOk a s → 0 < f →
    f < tableLen → ¬ Live s.fsTable f → FirstClear a s.fsBitmap c → FirstFree (tab a s.dev c) b →
      FoundAgain a s f c b := by
  intro h
  have hclu := cluCnt_hugeHead
  have hv : VolOk (imageArgs hugeHead) (crowdedSt hugeHead) :=
    (bare_crowdedSt geo_hugeHead (by rw [hclu]; decide)).volOk
  obtain ⟨hc, hb⟩ := firstClear_huge
  have hdead : ¬ Live (crowdedSt hugeHead).fsTable 1 := fun hlive => hlive.lnk rfl
  exact hc.lost hv (by decide) (by decide) hdead hb (le_refl _)
    (h _ _ 1 65536 1 hv (by decide) (by decide) hdead hc hb)

/-- A file in cluster 1 is found. -/
theorem foundAgain_seven : (1 : ℤ) < 65536 ∧ FoundAgain sevenArgs sevenFresh 1 1 1 := by
  have hF := formatted_sevenFresh
  have hdead : ¬ Live sevenFresh.fsTable 1 := fun hlive => hlive.lnk rfl
  have hc : FirstClear sevenArgs sevenFresh.fsBitmap 1 := by
    refine ⟨le_refl 1, by rw [cluCnt_sevenArgs]; decide, ?_, fun c' h1 hlt => absurd h1 (not_le.mpr hlt)⟩
    rw [hF.agree.bit 1 (by decide) (by rw [cluCnt_sevenArgs]; decide)]
    exact taken_of_root (hF.allFree 1)
  have hb : FirstFree (tab sevenArgs sevenFresh.dev 1) 1 :=
    ⟨0, rfl, hF.allFree 1 0, fun j hj => absurd hj (Nat.not_lt_zero j)⟩
  exact ⟨by decide, (foundAgain_iff hF.volOk (by decide) (by decide) hdead hc hb).mpr (by decide)⟩

end Fcfs.Vol
