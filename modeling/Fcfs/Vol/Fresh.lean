import Fcfs.Vol.Dirs

/-! # A freshly formatted volume

`Formatted` is the state of a driver that has just mounted what the formatter wrote: every block but
the root's is free, no entry of the table is in use, the root is empty, and so are the caches. The
volume is in order then (`Formatted.volOk`). -/

namespace Fcfs.Vol

open Lib.Bytes

/-- **A volume without files**: the root is empty, no entry of the table is in use, and no block
carries the identifier of a file. -/
structure Bare (a : Args) (s : St) : Prop where
  mounted : Mounted a s.dev
  clus : 0 < a.cluCnt
  agree : Agree a s.dev s.fsBitmap
  rootTab : ∀ i, tab a s.dev 0 i = ⟨0, UInt32.ofNat i⟩
  noBlk : ∀ c f : ℤ, 0 < f → f < tableLen → ∀ i, (tab a s.dev c i).fid ≠ u32 f
  rootEntry : RootEntry s.fsTable
  entrs : ∀ f : ℤ, 0 < f → f < tableLen → (s.fsTable.entrs f).Blank
  size : leNat 4 (a.ciph.decrypt a.lblkSz (data a s.dev 0 1)) = 0
  s0Cnt : s.clrsCache.s0Cnt = 0
  s1Cnt : s.clrsCache.s1Cnt = 0
  seqs : ∀ f, s.mapSeq f = none

section Bare
variable {a : Args} {s : St}

theorem Bare.cacheOk (h : Bare a s) (f : ℤ) (cl : List ℤ) : CacheOk s.clrsCache f cl :=
  ⟨fun _ h0 => absurd h.s0Cnt h0, fun _ h1 => absurd h.s1Cnt h1⟩

theorem Bare.eq_root (h : Bare a s) {f : ℤ} (hf : f = 0 ∨ Live s.fsTable f) : f = 0 := by
  refine hf.elim id fun hlive => ?_
  by_contra hne
  have h0 := hlive.nonneg
  exact hlive.lnk (h.entrs f (by omega) hlive.lt).lnk

/-- **The volume is in order.** -/
theorem Bare.volOk (h : Bare a s) : VolOk a s := by
  have hL : 1024 ≤ a.lblkSz := h.mounted.geo.le_lblkSz
  have hsec : ∀ f : ℤ, 0 ≤ f → f < tableLen → secAddr s.fsTable f = 0 := by
    intro f h0 hf
    unfold secAddr
    by_cases hz : f = 0
    · rw [hz, h.rootEntry.sec]
      rfl
    · rw [(h.entrs f (by omega) hf).clrs 13 (by decide)]
      rfl
  refine ⟨h.mounted, h.agree, fun f hf => ?_, fun f h0 hf _ => ⟨[], ?_⟩,
    fun f g h0 hf _ _ _ hne => absurd (hsec f h0 hf) hne, fun f hlive hne => ?_⟩
  · obtain rfl := h.eq_root hf
    refine ⟨[0], List.nodup_singleton 0, fileOk_root h.mounted h.clus h.rootEntry h.rootTab
      (h.cacheOk 0 [0]) (fun l hl => ?_) (by rw [h.size]; omega)⟩
    rw [h.seqs] at hl
    cases hl
  · have hent := h.entrs f h0 hf
    refine ⟨⟨⟨fun i hi => ?_, fun c hc => absurd hc List.not_mem_nil, Nat.zero_le _,
      fun _ => hsec f (by omega) hf, fun hlong => absurd hlong (by simp)⟩, Nat.zero_le _,
      fun hlong => absurd hlong (by simp)⟩, Or.inl (hsec f (by omega) hf), h.cacheOk f [],
      fun c _ _ i hfid => ?_⟩
    · rw [hent.clrs i (by unfold clusterPerFile; omega)]
      rfl
    · exact h.noBlk c f h0 hf i hfid
  · exact absurd (h.eq_root (Or.inr hlive)) hne

end Bare

/-- **A freshly formatted and mounted volume.** -/
structure Formatted (a : Args) (s : St) : Prop where
  mounted : Mounted a s.dev
  clus : 0 < a.cluCnt
  bits : ∀ c : ℤ, 0 ≤ c → c < a.cluCnt → full s.fsBitmap c = false
  rootTab : ∀ i, tab a s.dev 0 i = ⟨0, UInt32.ofNat i⟩
  free : ∀ c : ℤ, 1 ≤ c → c < a.cluCnt → AllFree (tab a s.dev c)
  rootEntry : RootEntry s.fsTable
  entrs : ∀ f : ℤ, 0 < f → f < tableLen → (s.fsTable.entrs f).Blank
  size : leNat 4 (a.ciph.decrypt a.lblkSz (data a s.dev 0 1)) = 0
  fid : s.clrsCache.fid = -1
  s0Cnt : s.clrsCache.s0Cnt = 0
  s1Cnt : s.clrsCache.s1Cnt = 0
  seqs : ∀ f, s.mapSeq f = none
  ids : ∀ p, s.mapFid p = none

section Formatted
variable {a : Args} {s : St}

theorem Formatted.allFree (h : Formatted a s) (c : ℤ) : AllFree (tab a s.dev c) := by
  intro i
  by_cases hc : 1 ≤ c ∧ c < a.cluCnt
  · exact h.free c hc.1 hc.2 i
  · by_cases h0 : c = 0
    · rw [h0, h.rootTab]
    · -- nothing is read outside the volume
      unfold tab ctable
      rw [if_neg (by omega)]
      rfl

theorem Formatted.agree (h : Formatted a s) : Agree a s.dev s.fsBitmap := by
  refine ⟨fun c h0 hc => ?_, h.allFree 0⟩
  rw [h.bits c h0 hc, taken_of_root (h.allFree c)]

theorem Formatted.bare (h : Formatted a s) : Bare a s :=
  ⟨h.mounted, h.clus, h.agree, h.rootTab, fun c _ h0 hf i hfid =>
    (u32_fid h0 hf).1 (hfid.symm.trans (h.allFree c i)), h.rootEntry, h.entrs, h.size, h.s0Cnt, h.s1Cnt,
    h.seqs⟩

/-- **The volume is in order.** -/
theorem Formatted.volOk (h : Formatted a s) : VolOk a s := h.bare.volOk

theorem Formatted.dirOf_root (h : Formatted a s) : dirOf a s.dev 0 = [] := by
  have hL : 1024 ≤ a.lblkSz := h.mounted.geo.le_lblkSz
  have hnodes : nodesAt a (tab a s.dev) 0 = rootNodes := by
    rw [nodesAt_root, nodesOf_root h.rootTab]
  have hmem : (⟨0, 1, 0⟩ : BlkInfo) ∈ rootNodes := by decide
  have hsize : leNat 4 (content a s.dev rootNodes) = 0 :=
    (leNat_content (seqOk_root h.clus (List.Perm.refl _)) (by omega) _ hmem rfl).trans h.size
  unfold dirOf entriesOf
  rw [hnodes, hsize]
  rfl

end Formatted

/-! ### Samples -/

/-- The memory of a driver that has just mounted a formatted volume whose free blocks are full of `x`. -/
def freshSt (h : FcfsHead) (x : UInt8) : St where
  dev := sampleDev h freshTab fun c _ _ => if c = 0 then 0 else x
  fsBitmap := fun _ => 0
  fsTable := ⟨UInt64.ofNat sizeofTable, rootAnd fun _ => TableEntry.zero⟩
  clrsCache := ⟨-1, fun _ => 0, fun _ => 0, 0, 0⟩
  mapSeq := fun _ => none
  mapFid := fun _ => none

theorem formatted_freshSt {h : FcfsHead} (hg : Geo h) (hclu : 0 < (imageArgs h).cluCnt) (x : UInt8) :
    Formatted (imageArgs h) (freshSt h x) := by
  have hL := hg.le_lblkSz
  have hzero : leNat 4 (fun _ => 0) = 0 := by decide
  refine ⟨mounted_sample hg _ _, hclu, fun c _ _ => full_zero c, fun i => ?_, fun c h1 hc i => ?_, ⟨rfl, rfl⟩,
    fun f h0 _ => ?_, ?_, rfl, rfl, rfl, fun _ => rfl, fun _ => rfl⟩
  · rw [freshSt, tab_sample hg _ _ (le_refl 0) (by omega)]
    rfl
  · rw [freshSt, tab_sample hg _ _ (by omega) hc]
    unfold freshTab
    split_ifs <;> rfl
  · have hent : (freshSt h x).fsTable.entrs f = TableEntry.zero := if_neg (by omega)
    rw [hent]
    exact TableEntry.blank_zero
  · have hin : InVol (imageArgs h) 0 1 := ⟨le_refl 0, by omega, by decide⟩
    rw [freshSt, data_sample hg _ _ hin (le_refl 1)]
    refine Eq.trans (leNat_congr fun i hi => ?_) hzero
    have hdec : ∀ n b, (imageArgs h).ciph.decrypt n b = cut n b := plain_decrypt
    have hL' : i < (imageArgs h).lblkSz := lt_of_lt_of_le hi (le_trans (by decide) hL)
    have hL'' : i < h.lblkSz := hL'
    rw [hdec, cut_of_lt _ hL', cut_of_lt _ hL'']
    rfl

theorem sevenFresh_eq : sevenFresh = freshSt sevenHead 0 := by
  unfold sevenFresh sevenSt freshSt
  simp only [ite_self]

theorem formatted_sevenFresh : Formatted sevenArgs sevenFresh := by
  rw [sevenFresh_eq]
  exact formatted_freshSt geo_sevenHead (by decide) 0

/-- The header of a device of 4642 sectors of 512 bytes. -/
def wideHead : FcfsHead := fmtrHead 512 4642 0 fun _ => 0

theorem geo_wideHead : Geo wideHead where
  toLayout := Persist.layout_fmtrHead (by decide) (by decide) (by unfold Fmtr.Geometry.Fits; decide)
  exact := by decide

/-- The arguments of a driver on it. -/
def wideArgs : Args := imageArgs wideHead

theorem cluCnt_wideArgs : wideArgs.cluCnt = 17 := by decide

theorem formatted_wide : Formatted wideArgs (freshSt wideHead 0) :=
  formatted_freshSt geo_wideHead (by decide) 0

end Fcfs.Vol
