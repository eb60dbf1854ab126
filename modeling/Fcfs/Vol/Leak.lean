import Fcfs.Vol.Recycle

/-! # Space after a deletion

Removing a file frees the blocks that carry its identifier. The cluster claimed for its second-level
list carries another one, and stays claimed. So creating a file, writing to it and removing it leaves
the free blocks as they were just if no such cluster was claimed (`leaksNothing_iff`). -/

namespace Fcfs.Vol

open Lib.Bytes Lib.Paged

/-- **The block is reserved for the file**: it carries its identifier, or lies in the cluster of its
second-level list. -/
def ReservedFor (a : Args) (s : St) (f c : ℤ) (i : Fin 7) : Prop :=
  (tab a s.dev c i).fid = u32 f ∨ secAddr s.fsTable f ≠ 0 ∧ c = secAddr s.fsTable f

/-- A write to the file that succeeds, whether through its handle or its path. -/
def WriteStep (a : Args) (f : ℤ) (s s' : St) : Prop :=
  ∃ path data size offset fh t, writeFid a s path fh = some (f, t) ∧ WriteOk a s path size offset fh ∧
    opsWrite a s path data size offset fh = some ((size : ℤ), s')

/-! ### What a run of writes does -/

/-- **A file that has been written to**: what was reserved for it still is, and what was taken was
free. -/
structure Filled (a : Args) (f : ℤ) (s s' : St) : Prop where
  volOk : VolOk a s'
  live : Live s'.fsTable f
  reserved : ∀ c i, ReservedFor a s f c i → ReservedFor a s' f c i
  addr : secAddr s.fsTable f ≠ 0 → secAddr s'.fsTable f = secAddr s.fsTable f
  claims : ClaimsOnly a f s s'
  tabs : ∀ c i, tab a s'.dev c i = tab a s.dev c i ∨ Mine f (tab a s.dev c i).fid ∧
    (Mine f (tab a s'.dev c i).fid ∨ (tab a s'.dev c i).fid = u32 (-1))

section Filled
variable {a : Args} {s t u : St} {f c : ℤ} {i : Fin 7}

theorem Looked.filled (h : Looked a s t) (hv : VolOk a s) (hlive : Live s.fsTable f) :
    Filled a f s t := by
  have hdev := h.dev
  have htab := h.table
  refine ⟨h.volOk hv, htab ▸ hlive, fun c i hr => ?_, fun _ => by rw [htab], fun c i hcl => Or.inl ?_,
    fun c i => Or.inl (by rw [hdev])⟩
  · unfold ReservedFor
    rw [hdev, htab]
    exact hr
  · rw [hdev] at hcl
    exact hcl

theorem Filled.trans (h : Filled a f s t) (h' : Filled a f t u) : Filled a f s u := by
  refine ⟨h'.volOk, h'.live, fun c i hr => h'.reserved c i (h.reserved c i hr), fun hs => ?_,
    fun c i hcl => ?_, fun c i => ?_⟩
  · have heq := h.addr hs
    exact (h'.addr (by rw [heq]; exact hs)).trans heq
  · rcases h'.claims c i hcl with hcl' | hc
    · rcases h.claims c i hcl' with hcl'' | ⟨hc, hne⟩
      · exact Or.inl hcl''
      · exact Or.inr ⟨hc.trans (h'.addr (by rw [← hc]; exact hne)).symm, hne⟩
    · exact Or.inr hc
  · rcases h'.tabs c i with heq' | ⟨hmine', hto'⟩
    · rw [heq']
      exact h.tabs c i
    · rcases h.tabs c i with heq | ⟨hmine, -⟩
      · exact Or.inr ⟨heq ▸ hmine', hto'⟩
      · exact Or.inr ⟨hmine, hto'⟩

/-- An entry with the identifier of a file is in the volume. -/
theorem range_of_fid (hf0 : 0 < f) (hft : f < tableLen) (hag : Agree a s.dev s.fsBitmap)
    (hfid : (tab a s.dev c i).fid = u32 f) : 1 ≤ c ∧ c < a.cluCnt := by
  by_contra hout
  have hz : (tab a s.dev c i).fid = 0 := by
    by_cases h0 : c = 0
    · rw [h0]
      exact hag.root i
    · unfold tab ctable
      rw [if_neg (by omega)]
      rfl
  exact (u32_fid hf0 hft).1 (hfid.symm.trans hz)

theorem Written.filled {need : ℤ} (h : Written a f need s t) (hv : VolOk a s) (hvt : VolOk a t)
    (hlive : Live s.fsTable f) (hf : f ≠ 0) : Filled a f s t := by
  have h0 := hlive.nonneg
  have hlt := hlive.lt
  refine ⟨hvt, ⟨h0, hlt, by rw [h.lnk]; exact hlive.lnk⟩, fun c i hr => ?_, h.addr, h.claims,
    fun c i => (h.onFile.tabs c i).imp_right And.right⟩
  rcases hr with hfid | ⟨hs, hc⟩
  · have hnode : (⟨c, i.val + 1, (tab a s.dev c i).num.toNat⟩ : BlkInfo) ∈ nodesAt a (tab a s.dev) f :=
      (mem_nodesAt hf).mpr ⟨range_of_fid (by omega) hlt hv.agree hfid, i, rfl, hfid, rfl⟩
    obtain ⟨-, j, hj, hfidj, -⟩ := (mem_nodesAt hf).mp (h.kept hnode)
    obtain rfl : j = i := Fin.ext (by simp only at hj; omega)
    exact Or.inl hfidj
  · have heq := h.addr hs
    exact Or.inr ⟨by rw [heq]; exact hs, by rw [heq]; exact hc⟩

/-- **One write.** -/
theorem WriteStep.filled (hv : VolOk a s) (hn : Numbered a) (hlive : Live s.fsTable f) (hf : f ≠ 0)
    (h : WriteStep a f s t) : Filled a f s t := by
  obtain ⟨path, data, size, offset, fh, u, hfid, hok, hop⟩ := h
  have hlook := hv.writeFid hfid
  have hvu := hlook.volOk hv
  have hliveu : Live u.fsTable f := hlook.table ▸ hlive
  obtain ⟨-, hfits⟩ := hok.file f u hfid
  obtain ⟨t', hop', hvt, hw, -⟩ := hvu.write hn.clus (Or.inr hliveu) hfid data hok.int hfits
  obtain ⟨-, rfl⟩ := Prod.mk.inj (Option.some.inj (hop'.symm.trans hop))
  exact (hlook.filled hv hlive).trans (hw.filled hvu hvt hliveu hf)

/-- **A run of writes.** -/
theorem filled_of_run (hv : VolOk a s) (hn : Numbered a) (hlive : Live s.fsTable f) (hf : f ≠ 0)
    (hrun : Relation.ReflTransGen (WriteStep a f) s t) : Filled a f s t := by
  induction hrun with
  | refl => exact (Looked.refl a s).filled hv hlive
  | tail _ hstep ih => exact ih.trans (hstep.filled ih.volOk hn ih.live hf)

end Filled

/-! ### Create, write, remove -/

/-- **Nothing leaks**: `s₀` is the state before the file is created, `s₁` after that, `s₂` after the
writes, `s₃` after it has been removed. Whatever was reserved for the file on the way is free at the
end, and the free blocks are those there were before, if the directory `p` has not grown. -/
structure LeaksNothing (a : Args) (f p : ℤ) (s₀ s₁ s₂ s₃ : St) : Prop where
  freed : ∀ t, Relation.ReflTransGen (WriteStep a f) s₁ t → Relation.ReflTransGen (WriteStep a f) t s₂ →
    ∀ c i, ReservedFor a t f c i → (tab a s₃.dev c i).fid = 0 ∧ full s₃.fsBitmap c = false
  blks : NoGrowth a s₀ p → freeBlks a (tab a s₃.dev) = freeBlks a (tab a s₀.dev)

section Leak
variable {a : Args} {s₀ s₁ s₂ s₃ : St} {f p q : ℤ}

theorem freeBlks_congr {T T' : ℤ → Fin 7 → BlkEnt} (h : ∀ c i, (T' c i).fid = 0 ↔ (T c i).fid = 0) :
    freeBlks a T' = freeBlks a T := by
  have hown : ∀ c, ownBids (T' c) 0 = ownBids (T c) 0 := by
    intro c
    unfold ownBids
    congr 1
    refine List.filter_congr fun i _ => ?_
    have hz : u32 0 = 0 := by decide
    rw [hz, Bool.eq_iff_iff, beq_iff_eq, beq_iff_eq, eq_comm, h, eq_comm]
  unfold freeBlks freeUpTo clusterBids
  exact List.flatMap_congr fun c _ => by rw [hown]

theorem cleared_free {e : Fin 7 → BlkEnt} {i : Fin 7} : (cleared f e i).fid = 0 ↔ Mine f (e i).fid := by
  unfold cleared Mine
  split_ifs with hfid
  · exact iff_of_true rfl (Or.inr hfid)
  · exact ⟨Or.inl, fun h => h.resolve_right hfid⟩

/-- **A claimed cluster leaks.** -/
theorem LeaksNothing.secAddr (h : LeaksNothing a f p s₀ s₁ s₂ s₃) (hv : VolOk a s₂) (hf0 : 0 < f)
    (hft : f < tableLen) (hrun : Relation.ReflTransGen (WriteStep a f) s₁ s₂)
    (htabs : ∀ c, tab a s₃.dev c = cleared f (tab a s₂.dev c)) : secAddr s₂.fsTable f = 0 := by
  by_contra hne
  obtain ⟨hfree, -⟩ := h.freed s₂ hrun Relation.ReflTransGen.refl _ 0 (Or.inr ⟨hne, rfl⟩)
  have hclaimed := ((hv.owned (by omega) hft).resolve_left hne) 0
  rw [htabs, cleared_free, hclaimed] at hfree
  rcases hfree with hz | hfid
  · exact absurd hz (by decide)
  · exact (u32_fid hf0 hft).2 hfid.symm

/-- **Without a claimed cluster nothing leaks.** -/
theorem leaksNothing_of_secAddr {b : ℤ × ℕ} (hv : VolOk a s₀) (hf0 : 0 < f) (hft : f < tableLen)
    (hdead : ¬ Live s₀.fsTable f) (hb : b ∈ freeBlks a (tab a s₀.dev)) (hn : Numbered a)
    (hmade : NoGrowth a s₀ p → ∀ c i, tab a s₁.dev c i =
      if (c, i.val + 1) = b then ⟨u32 f, 0⟩ else tab a s₀.dev c i)
    (hv₁ : VolOk a s₁) (hlive : Live s₁.fsTable f)
    (hrun : Relation.ReflTransGen (WriteStep a f) s₁ s₂) (hv₃ : VolOk a s₃)
    (htabs : ∀ c, tab a s₃.dev c = cleared f (tab a s₂.dev c)) (hsec : secAddr s₂.fsTable f = 0) :
    LeaksNothing a f p s₀ s₁ s₂ s₃ := by
  have hfill := filled_of_run hv₁ hn hlive (by omega) hrun
  obtain ⟨hne0, hne1⟩ := u32_fid hf0 hft
  refine ⟨fun t ht ht' c i hr => ?_, fun hno => freeBlks_congr fun c i => ?_⟩
  · have hfillt := filled_of_run hv₁ hn hlive (by omega) ht
    rcases (filled_of_run hfillt.volOk hn hfillt.live (by omega) ht').reserved c i hr with hfid | ⟨hs, -⟩
    · have hfree : (tab a s₃.dev c i).fid = 0 := by
        rw [htabs]
        exact cleared_free.mpr (Or.inr hfid)
      obtain ⟨h1, hc⟩ := range_of_fid hf0 hft hfill.volOk.agree hfid
      refine ⟨hfree, ?_⟩
      rw [hv₃.agree.bit c (by omega) hc]
      exact decide_eq_false fun hall => hall i hfree
    · exact absurd hsec hs
  · -- the file has taken free blocks, and no others
    obtain ⟨-, -, -, -, j, hj, hfree⟩ := freeBlk_in hb
    obtain ⟨cl, hdeadOk⟩ := hv.free f hf0 hft hdead
    have hfirst : Mine f (tab a s₁.dev c i).fid ↔ (tab a s₀.dev c i).fid = 0 := by
      rw [hmade hno]
      by_cases hbi : (c, i.val + 1) = b
      · subst hbi
        obtain rfl : j = i := Fin.ext (by simp only at hj; omega)
        rw [if_pos rfl]
        exact iff_of_true (Or.inr rfl) hfree
      · rw [if_neg hbi]
        refine ⟨fun hmine => hmine.resolve_right fun hfid => ?_, Or.inl⟩
        obtain ⟨h1, hc⟩ := range_of_fid hf0 hft hv.agree hfid
        exact hdeadOk.none c (by omega) hc i hfid
    rw [htabs, cleared_free, ← hfirst]
    rcases hfill.tabs c i with heq | ⟨hmine, hmine' | hcl⟩
    · rw [heq]
    · exact iff_of_true hmine' hmine
    · exfalso
      rcases hfill.claims c i hcl with hcl' | ⟨hc, hne⟩
      · rw [hcl'] at hmine
        exact hmine.elim (fun hz => absurd hz (by decide)) fun hfid => hne1 hfid.symm
      · exact hne (hc.trans hsec)

/-- **What unlinking a file does to the cluster tables.** -/
theorem VolOk.unlink_tabs {s s' t : St} {path : Path} {r : ℤ} (hv : VolOk a s) (hn : Numbered a) (hf0 : 0 < f)
    (hfid : fcfsGetFid a s path = some (f, t)) (hrm : RemoveOk a s path)
    (hun : opsUnlink a s path = some (r, s')) :
    VolOk a s' ∧ ∀ c, tab a s'.dev c = cleared f (tab a s.dev c) := by
  obtain ⟨⟨g, t'⟩, hfid', hrest⟩ := Option.bind_eq_some_iff.mp hun
  obtain ⟨rfl, rfl⟩ := Prod.mk.inj (Option.some.inj (hfid.symm.trans hfid'))
  obtain ⟨⟨q, w⟩, hq, -⟩ := Option.bind_eq_some_iff.mp hrest
  obtain ⟨hlive, hqlive, hne⟩ := (hrm _ _ q w hfid hq).resolve_left (by omega)
  obtain ⟨u, hop, hvu, hremoved⟩ := hv.remove hn hfid hq hlive (by omega) hqlive hne
  obtain ⟨-, rfl⟩ := Prod.mk.inj (Option.some.inj (hop.symm.trans hun))
  have hlook := hv.getFid hfid
  refine ⟨hvu, fun c => ?_⟩
  rw [hremoved.tabs, (hlook.trans ((hlook.volOk hv).getPfid hq)).dev]

/-- **Exactly when nothing leaks**: no cluster has been claimed for the list of the file when it is
removed. -/
theorem leaksNothing_iff {path path' : Path} {now : UInt64} {mode : UInt32} {r r' : ℤ} {t u : St}
    (hv : VolOk a s₀) (hn : Numbered a) (hok : MakeOk a s₀ path)
    (hforget : Forgotten s₀ (devFreeFid a s₀.fsTable) (firstFree a s₀))
    (hpar : fcfsGetPfid a s₀ path = some (p, u)) (hmake : opsCreate a now s₀ path mode = some (r, s₁))
    (hrun : Relation.ReflTransGen (WriteStep a (devFreeFid a s₀.fsTable)) s₁ s₂)
    (hfid : fcfsGetFid a s₂ path' = some (devFreeFid a s₀.fsTable, t)) (hrm : RemoveOk a s₂ path')
    (hun : opsUnlink a s₂ path' = some (r', s₃)) :
    LeaksNothing a (devFreeFid a s₀.fsTable) p s₀ s₁ s₂ s₃ ↔
      secAddr s₂.fsTable (devFreeFid a s₀.fsTable) = 0 := by
  have hf0 := hok.fid
  obtain ⟨hft, hdead⟩ := devFreeFid_free hn hf0
  -- the file is made
  obtain ⟨p', u', name, hpar', hbase, hname⟩ := opsCreate_name hv hf0 hmake
  obtain ⟨rfl, rfl⟩ := Prod.mk.inj (Option.some.inj (hpar.symm.trans hpar'))
  obtain ⟨v, hop, hmade⟩ :=
    hv.create hn hok (hforget.first hv.mounted hok.first_mem) hpar hbase hname now mode
  obtain ⟨-, rfl⟩ := Prod.mk.inj (Option.some.inj (hop.symm.trans hmake))
  have hv₁ := hok.volOk hn hv hforget hpar hmade
  have hlive := hmade.live hf0 hft
  have hdev := (hv.getPfid hpar).dev
  -- and written to
  have hfill := filled_of_run hv₁ hn hlive (by omega) hrun
  -- and removed
  obtain ⟨hv₃, htabs⟩ := hfill.volOk.unlink_tabs hn hf0 hfid hrm hun
  refine ⟨fun h => h.secAddr hfill.volOk hf0 hft hrun htabs, fun hsec => ?_⟩
  refine leaksNothing_of_secAddr hv hf0 hft hdead hok.first_mem hn (fun hno => ?_) hv₁ hlive hrun hv₃ htabs
    hsec
  rw [← hdev]
  refine hmade.tabs ?_
  unfold NoGrowth
  rw [hdev]
  exact hno

end Leak

/-! ### The first file of a volume -/

/-- The first file of a formatted volume made, written to and removed: `s₁`, `s₂` and `s₃` are the
states in between. -/
structure Lifetime (a : Args) (need : ℤ) (s s₁ s₂ s₃ : St) : Prop where
  fid : devFreeFid a s.fsTable = 1
  make : MakeOk a s (rootName 97)
  forgotten : Forgotten s (devFreeFid a s.fsTable) (firstFree a s)
  parent : fcfsGetPfid a s (rootName 97) = some (0, s)
  made : ∃ r, opsCreate a 0 s (rootName 97) 0 = some (r, s₁)
  first : FirstMade a s₁
  wrote : WriteStep a 1 s₁ s₂
  written : Written a 1 need s₁ s₂
  volOk : VolOk a s₂
  found : ∃ t, fcfsGetFid a s₂ (rootName 97) = some (1, t)
  remove : RemoveOk a s₂ (rootName 97)
  gone : ∃ r, opsUnlink a s₂ (rootName 97) = some (r, s₃)

section Lifetime
variable {a : Args} {s s₁ s₂ s₃ : St} {need : ℤ}

theorem Formatted.lifetime (h : Formatted a s) (hn : Numbered a) (hclu : 3 ≤ a.cluCnt)
    (htbl : 2 ≤ a.fsHead.tblCnt.toNat) {size : ℕ} (hint : 0 + 4 + size < 2 ^ 31)
    (hspace : writeNeed a size 0 ≤ 7 * (a.cluCnt - 2 : ℕ)) (hcap : writeNeed a size 0 ≤ 12 + secCap a) :
    ∃ s₁ s₂ s₃, Lifetime a (writeNeed a size 0) s s₁ s₂ s₃ := by
  obtain ⟨s₁, hmake, hforget, hop₁, hfirst, -⟩ := h.make hn (by omega) htbl
  have hfits := hfirst.fits hclu hspace hcap
  obtain ⟨s₂, hwrite, hop₂, hv₂, hw⟩ := hfirst.write hn (fun _ => 0) hint hfits
  obtain ⟨s₃, hremove, hop₃, -, t, hfid⟩ := hfirst.remove hn hv₂ hw
  obtain ⟨⟨r, v⟩, hcreate, rfl⟩ := Option.map_eq_some_iff.mp hop₁
  obtain ⟨⟨r', v'⟩, hunlink, rfl⟩ := Option.map_eq_some_iff.mp hop₃
  obtain ⟨⟨n, u⟩, hwr, rfl⟩ := Option.map_eq_some_iff.mp hop₂
  have hself : writeFid a v (rootName 97) 1 = some (1, v) := rfl
  obtain ⟨u', hwr', -⟩ :=
    hfirst.volOk.write hn.clus (Or.inr hfirst.live) hself (fun _ => 0) hwrite.int hfits
  obtain ⟨rfl, rfl⟩ := Prod.mk.inj (Option.some.inj (hwr.symm.trans hwr'))
  exact ⟨v, u, v', devFreeFid_one (h.entrs 1 one_pos (by decide)).lnk htbl, hmake, hforget,
    fcfsGetPfid_root (by decide) (h.ids _), ⟨r, hcreate⟩, hfirst,
    ⟨_, _, size, 0, 1, v, hself, hwrite, hwr⟩, hw, hv₂, ⟨t, hfid⟩, hremove, ⟨r', hunlink⟩⟩

/-- A file of more than thirteen clusters has a second-level list. -/
theorem Lifetime.secAddr (h : Lifetime a need s s₁ s₂ s₃) (hneed : 91 < need) :
    Vol.secAddr s₂.fsTable 1 ≠ 0 := by
  obtain ⟨cl, -, hok, -⟩ := h.written.ok
  obtain ⟨l, hl, hlen⟩ := h.written.seq
  have hlist : l.Perm (nodesAt a (tab a s₂.dev) 1) := hok.cached l hl
  have hle := length_ownNodes_le (tab a s₂.dev) 1 cl
  rw [hok.nodes.length_eq, ← hlist.length_eq] at hle
  have hsec : SecClu a (Vol.secAddr s₂.fsTable 1) := (hok.stored one_ne_zero).long (by omega)
  have hpos := hsec.1
  omega

end Lifetime

/-- A file of one block on a volume of seven clusters. -/
theorem leaksNothing_seven : ∃ s₁ s₂ s₃, Lifetime sevenArgs 1 sevenFresh s₁ s₂ s₃ ∧
    (LeaksNothing sevenArgs (devFreeFid sevenArgs sevenFresh.fsTable) 0 sevenFresh s₁ s₂ s₃ ↔
      secAddr s₂.fsTable (devFreeFid sevenArgs sevenFresh.fsTable) = 0) := by
  have hneed : writeNeed sevenArgs 8 0 = 1 := by decide
  have hint : 0 + 4 + 8 < 2 ^ 31 := by decide
  obtain ⟨s₁, s₂, s₃, h⟩ := formatted_sevenFresh.lifetime numbered_seven (by decide) (by decide) hint
    (by rw [hneed]; decide) (by rw [hneed]; decide)
  have hfid := h.fid
  obtain ⟨r, hmade⟩ := h.made
  obtain ⟨t, hfound⟩ := h.found
  obtain ⟨r', hgone⟩ := h.gone
  exact ⟨s₁, s₂, s₃, hneed ▸ h, leaksNothing_iff formatted_sevenFresh.volOk numbered_seven h.make h.forgotten
    h.parent hmade (by rw [hfid]; exact Relation.ReflTransGen.single h.wrote)
    (show _ = some (_, t) by rw [hfid]; exact hfound) h.remove hgone⟩

/-- On a volume of seventeen clusters: a file of ninety-three blocks leaves a cluster claimed. -/
theorem not_leaksNothing_of_run : ¬ ∀ (a : Args) (s₀ s₁ s₂ s₃ t u : St) (path path' : Path) (p r r' : ℤ),
    VolOk a s₀ → Numbered a → MakeOk a s₀ path →
    Forgotten s₀ (devFreeFid a s₀.fsTable) (firstFree a s₀) → fcfsGetPfid a s₀ path = some (p, u) →
    opsCreate a 0 s₀ path 0 = some (r, s₁) →
    Relation.ReflTransGen (WriteStep a (devFreeFid a s₀.fsTable)) s₁ s₂ →
    fcfsGetFid a s₂ path' = some (devFreeFid a s₀.fsTable, t) → RemoveOk a s₂ path' →
    opsUnlink a s₂ path' = some (r', s₃) →
      LeaksNothing a (devFreeFid a s₀.fsTable) p s₀ s₁ s₂ s₃ := by
  intro hall
  have hn : Numbered wideArgs := ⟨by decide, by decide⟩
  have hneed : writeNeed wideArgs 94208 0 = 93 := by decide
  have hint : 0 + 4 + 94208 < 2 ^ 31 := by decide
  obtain ⟨s₁, s₂, s₃, h⟩ := formatted_wide.lifetime hn (by decide) (by decide) hint
    (by rw [hneed]; decide) (by rw [hneed]; decide)
  have hfid := h.fid
  obtain ⟨r, hmade⟩ := h.made
  obtain ⟨t, hfound⟩ := h.found
  obtain ⟨r', hgone⟩ := h.gone
  have hrun := Relation.ReflTransGen.single h.wrote
  have hleak := hall wideArgs (freshSt wideHead 0) s₁ s₂ s₃ t _ _ _ 0 r r' formatted_wide.volOk hn h.make
    h.forgotten h.parent hmade (by rw [hfid]; exact hrun) (by rw [hfid]; exact hfound) h.remove hgone
  rw [hfid] at hleak
  obtain ⟨-, htabs⟩ := h.volOk.unlink_tabs hn one_pos hfound h.remove hgone
  exact h.secAddr (by rw [hneed]; decide) (hleak.secAddr h.volOk one_pos (by decide) hrun htabs)

end Fcfs.Vol
