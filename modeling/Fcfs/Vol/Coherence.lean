import Fcfs.Vol.Recycle

/-! # The cluster-list cache and the file table

`clrs_cache` holds the cluster list of one file, known by its identifier alone. `ClrsCoherent` says
that what it holds of a file is what the table has of it, and that the driver sees the same list
either way. It holds of every file of a volume in order (`VolOk.clrsCoherent`), so it does throughout
a run whose creations find nothing cached of the identifier they give out (`clrsCoherent_of_run`). -/

namespace Fcfs.Vol

open Lib.Bytes

/-! ### Cluster lists -/

/-- The direct clusters in the cache. -/
def cachedDirect (c : ClrsCache) : List ℤ := (List.range c.s0Cnt).map fun i => ((c.s0Cl i).toNat : ℤ)

/-- The list is what `dev_tbl_clrs_cnt` counts and `dev_tbl_clrs_get` then gives. -/
def SeenAs (a : Args) (s : St) (f : ℤ) (l : List ℤ) : Prop :=
  ∃ t, devTblClrsCnt a s f = some ((l.length : ℤ), t) ∧
    ∀ i < l.length, devTblClrsGet a t f i = some (l.getD i 0, t)

/-- **The cache agrees with the table** on the file. -/
structure ClrsCoherent (a : Args) (s : St) (f : ℤ) : Prop where
  dir : s.clrsCache.fid = f →
    s.clrsCache.s0Cnt = 0 ∨ cachedDirect s.clrsCache = directClrs s.fsTable f
  sec : s.clrsCache.fid = f → s.clrsCache.s1Cnt = 0 ∨ secAddr s.fsTable f ≠ 0 ∧
    ∃ w, devTblLoadSec a s.dev (secAddr s.fsTable f) = some (s.clrsCache.s1Cnt, w) ∧
      ∀ j < s.clrsCache.s1Cnt, s.clrsCache.s1Cl j = w j
  seen : ∃ l, tableClrs a s f = some l ∧ SeenAs a s f l

/-! ### The lists of a file in order -/

theorem DirOk.cachedDirect {c : ClrsCache} {cl : List ℤ} (h : DirOk c cl) : cachedDirect c = cl.take 13 := by
  obtain ⟨hcnt, hs⟩ := h
  unfold Vol.cachedDirect
  refine List.ext_getElem (by simp [hcnt]) fun i hi hi' => ?_
  rw [List.length_take] at hi'
  rw [List.getElem_map, List.getElem_range, List.getElem_take, hs i hi', List.getD_eq_getElem]

/-! ### Coherence -/

section Coherent
variable {a : Args} {s s' : St} {f : ℤ} {cl : List ℤ}

theorem seenAs_of_loaded {c : ClrsCache} (h : devTblClrsCnt a s f = some ((cl.length : ℤ), { s with clrsCache := c }))
    (hl : Loaded c f cl) (hsmall : ∀ x ∈ cl, 0 ≤ x ∧ x < 2 ^ 31) (hlen : cl.length ≤ s1Len a) :
    SeenAs a s f cl :=
  ⟨_, h, fun _ hi => devTblClrsGet_eq (s := { s with clrsCache := c }) hl hsmall hi (by omega)⟩

/-- **The cache agrees with the table** on a file in order. -/
theorem FileOk.clrsCoherent (h : FileOk a s f cl) (hm : Mounted a s.dev) : ClrsCoherent a s f := by
  have hL : 1024 ≤ a.lblkSz := hm.geo.le_lblkSz
  by_cases hf : f = 0
  · subst hf
    obtain ⟨hroot, rfl⟩ := h.root rfl
    have hsec : secAddr s.fsTable 0 = 0 := by
      unfold secAddr
      rw [hroot.sec]
      rfl
    obtain ⟨c, hcnt, hl⟩ := devTblClrsCnt_root hroot h.cache
    refine ⟨fun hfid => or_iff_not_imp_left.mpr fun h0 => ?_, fun hfid => or_iff_not_imp_left.mpr fun h1 => ?_,
      [0], if_pos hsec, seenAs_of_loaded hcnt hl (by simp) (by unfold s1Len; simp; omega)⟩
    · exact (h.cache.dir hfid h0).cachedDirect
    · exact absurd (h.cache.ind hfid h1).1 h1
  · have hst := h.stored hf
    obtain ⟨c, hcnt, hl⟩ := devTblClrsCnt_eq hm hf hst h.cache
    refine ⟨fun hfid => or_iff_not_imp_left.mpr fun h0 => ?_, fun hfid => or_iff_not_imp_left.mpr fun h1 => ?_,
      cl, hst.tableClrs hm hf, seenAs_of_loaded hcnt hl (hst.small hm.cluCnt_lt) hst.bound⟩
    · exact (h.cache.dir hfid h0).cachedDirect.trans (hst.slotted.directClrs hf).symm
    · obtain ⟨hcnt1, hw1⟩ := h.cache.ind hfid h1
      have hlong : 13 < cl.length := by omega
      have hpos := (hst.long hlong).pos
      obtain ⟨w, hload, hw⟩ := hst.loadSec hm hlong
      refine ⟨by omega, w, by rw [hcnt1]; exact hload, fun j hj => UInt32.toNat_inj.mp ?_⟩
      have hj1 := hw1 j (by omega)
      have hj2 := hw j (by omega)
      rw [getD_drop] at hj2
      omega

theorem VolOk.clrsCoherent (hv : VolOk a s) (hf : f = 0 ∨ Live s.fsTable f) : ClrsCoherent a s f := by
  obtain ⟨cl, -, hok⟩ := hv.files f hf
  exact hok.clrsCoherent hv.mounted

/-- **In every run whose creations find the caches clear the cache agrees with the table** on the
root and every file. -/
theorem clrsCoherent_of_run {s₀ : St} (hv : VolOk a s₀) (hn : Numbered a)
    (hrun : Relation.ReflTransGen (CleanStep a) s₀ s) (hf : f = 0 ∨ Live s.fsTable f) :
    ClrsCoherent a s f := (hv.run hn hrun).clrsCoherent hf

end Coherent

/-- The first file of a formatted volume. -/
theorem clrsCoherent_seven : ∃ s, Relation.ReflTransGen (CleanStep sevenArgs) sevenFresh s ∧
    Live s.fsTable 1 ∧ ClrsCoherent sevenArgs s 1 := by
  obtain ⟨s, hw, hf, hop, hfirst, -⟩ := formatted_sevenFresh.make numbered_seven (by decide) (by decide)
  have hstep : CleanStep sevenArgs sevenFresh s := ⟨_, hw, hf, hop⟩
  have hrun := Relation.ReflTransGen.single hstep
  exact ⟨s, hrun, hfirst.live,
    clrsCoherent_of_run formatted_sevenFresh.volOk numbered_seven hrun (Or.inr hfirst.live)⟩

/-- **A new file with the identifier of an old one** is seen with the clusters of the old one. -/
theorem Recycled.not_clrsCoherent {a : Args} {s : St} {need : ℤ} (h : Recycled a need s)
    (hneed : 7 < need) : ¬ ClrsCoherent a s 1 := by
  intro hcoh
  obtain ⟨cl, hl, hlen⟩ := h.clrs
  have hcnt := hl.dir.1
  rcases hcoh.dir hl.fid with h0 | heq
  · omega
  · have hlist := congrArg List.length heq
    rw [hl.dir.cachedDirect, h.newborn.stored.slotted.directClrs (by decide), List.length_take,
      List.length_take, List.length_singleton] at hlist
    omega

/-- On a volume of seven clusters: a file of eight blocks is removed, and another one made. -/
theorem not_clrsCoherent_of_run : ¬ ∀ (a : Args) (s₀ s : St), Formatted a s₀ → Numbered a →
    Relation.ReflTransGen (WithinStep a) s₀ s → ∀ f, f = 0 ∨ Live s.fsTable f →
      ClrsCoherent a s f := by
  intro h
  have hneed : writeNeed sevenArgs 7168 0 = 8 := by decide
  have hint : 0 + 4 + 7168 < 2 ^ 31 := by decide
  obtain ⟨s, hrun, hrec⟩ := formatted_sevenFresh.recycled numbered_seven (by decide) (by decide) hint
    (by rw [hneed]; decide) (by rw [hneed]; decide)
  exact hrec.not_clrsCoherent (by rw [hneed]; decide)
    (h _ _ s formatted_sevenFresh numbered_seven hrun 1 (Or.inr hrec.live))

end Fcfs.Vol
