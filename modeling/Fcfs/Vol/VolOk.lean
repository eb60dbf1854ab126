import Fcfs.Vol.Sound

/-! # The volume in order

`VolOk` is what a run of the driver keeps up: the bitmap agrees with the cluster tables, the root and
every file are in order, nothing but a cluster list is left of any other entry of the table, and no
two entries share an address cluster. It survives work on one file if that file comes out of it in
order (`VolOk.step`); while a file is being made it holds of the others (`VolBut`). It survives every
lookup (`VolOk.looked`). What only looks things up is `Looked`: the volume and the table stay, and
the caches change to what agrees. `Sound` is the part of `VolOk` that concerns the root and the
files. -/

namespace Fcfs.Vol

open Lib.Bytes

/-! ### One list in the table entry -/

/-- An element of a list of clusters is not 0, so the first 0 ends the list. -/
theorem length_le_of_getD {cl : List ℤ} (h : ∀ c ∈ cl, 1 ≤ c) {n : ℕ} (hn : cl.getD n 0 = 0) :
    cl.length ≤ n := by
  by_contra hlt
  have hmem : cl.getD n 0 ∈ cl := by
    rw [List.getD_eq_getElem _ _ (by omega)]
    exact List.getElem_mem _
  have := h _ hmem
  omega

/-- **A table entry stores one list.** -/
theorem Stored.unique {a : Args} {d : Dev} {t : FcfsTable} {f : ℤ} {cl cl' : List ℤ}
    (h : Stored a d t f cl) (h' : Stored a d t f cl') : cl = cl' := by
  have hpos : ∀ c ∈ cl, 1 ≤ c := fun c hc => (h.range c hc).1
  have hpos' : ∀ c ∈ cl', 1 ≤ c := fun c hc => (h'.range c hc).1
  have hslot : ∀ i < 13, cl.getD i 0 = cl'.getD i 0 := fun i hi =>
    (h.slots i hi).symm.trans (h'.slots i hi)
  have hlong : 13 < cl.length ↔ 13 < cl'.length := by
    constructor <;> intro hlt <;> by_contra hle
    · have := (h.long hlt).pos
      have := h'.short (by omega)
      omega
    · have := (h'.long hlt).pos
      have := h.short (by omega)
      omega
  have hlen : cl.length = cl'.length := by
    by_cases hl : 13 < cl.length
    · have hc := (h.words hl).1
      have hc' := (h'.words (hlong.mp hl)).1
      rw [hc', List.length_drop, List.length_drop] at hc
      have := hlong.mp hl
      omega
    · have hl' : ¬ 13 < cl'.length := fun hlt => hl (hlong.mpr hlt)
      by_contra hne
      rcases Nat.lt_or_ge cl.length cl'.length with hlt | hge
      · have hz : cl'.getD cl.length 0 = 0 := by
          rw [← hslot _ (by omega), List.getD_eq_default _ _ (le_refl _)]
        have := length_le_of_getD hpos' hz
        omega
      · have hz : cl.getD cl'.length 0 = 0 := by
          rw [hslot _ (by omega), List.getD_eq_default _ _ (le_refl _)]
        have := length_le_of_getD hpos hz
        omega
  refine List.ext_getElem hlen fun i hi hi' => ?_
  rw [← List.getD_eq_getElem _ 0 hi, ← List.getD_eq_getElem _ 0 hi']
  by_cases h13 : i < 13
  · exact hslot i h13
  · obtain ⟨hn, hw⟩ := h.words (by omega)
    obtain ⟨hn', hw'⟩ := h'.words (by omega)
    have hdrop : (cl.drop 13).length = cl.length - 13 := List.length_drop
    have hdrop' : (cl'.drop 13).length = cl'.length - 13 := List.length_drop
    have hw0 := hw (i - 13) (by omega)
    rw [hw' (i - 13) (by omega)] at hw0
    rw [List.getD_eq_getElem?_getD, List.getD_eq_getElem?_getD, List.getElem?_drop,
      List.getElem?_drop, Nat.add_sub_cancel' (by omega : 13 ≤ i)] at hw0
    rw [List.getD_eq_getElem?_getD, List.getD_eq_getElem?_getD]
    exact hw0.symm

theorem FileOk.unique {a : Args} {s : St} {f : ℤ} {cl cl' : List ℤ} (h : FileOk a s f cl)
    (h' : FileOk a s f cl') : cl = cl' := by
  by_cases hf : f = 0
  · rw [(h.root hf).2, (h'.root hf).2]
  · exact (h.stored hf).unique (h'.stored hf)

/-! ### The invariant -/

/-- **The root and every file are in order.** -/
structure Sound (a : Args) (s : St) : Prop where
  mounted : Mounted a s.dev
  agree : Agree a s.dev s.fsBitmap
  files : ∀ f, f = 0 ∨ Live s.fsTable f → ∃ cl, FileOk a s f cl

/-- **The volume is in order.** -/
structure VolOk (a : Args) (s : St) : Prop where
  mounted : Mounted a s.dev
  agree : Agree a s.dev s.fsBitmap
  files : ∀ f, f = 0 ∨ Live s.fsTable f → ∃ cl : List ℤ, cl.Nodup ∧ FileOk a s f cl
  free : ∀ f : ℤ, 0 < f → f < tableLen → ¬ Live s.fsTable f → ∃ cl, FreeOk a s f cl
  distinct : ∀ f g : ℤ, 0 ≤ f → f < tableLen → 0 ≤ g → g < tableLen → f ≠ g →
    secAddr s.fsTable f ≠ 0 → secAddr s.fsTable f ≠ secAddr s.fsTable g
  lnk : ∀ f, Live s.fsTable f → f ≠ 0 → (s.fsTable.entrs f).lnkCnt = 1

section VolOk
variable {a : Args} {s s' : St} {f : ℤ}

theorem VolOk.sound (h : VolOk a s) : Sound a s :=
  ⟨h.mounted, h.agree, fun f hf => by
    obtain ⟨cl, -, hok⟩ := h.files f hf
    exact ⟨cl, hok⟩⟩

theorem VolOk.owned (h : VolOk a s) (h0 : 0 ≤ f) (hf : f < tableLen) : SecOwned a s f := by
  by_cases hlive : f = 0 ∨ Live s.fsTable f
  · obtain ⟨cl, -, hok⟩ := h.files f hlive
    exact hok.owned
  · rw [not_or] at hlive
    obtain ⟨cl, hok⟩ := h.free f (by omega) hf hlive.2
    exact hok.owned

theorem live_congr {t t' : FcfsTable} (h : t'.entrs f = t.entrs f) : Live t' f ↔ Live t f :=
  ⟨fun hl => ⟨hl.nonneg, hl.lt, h ▸ hl.lnk⟩, fun hl => ⟨hl.nonneg, hl.lt, h.symm ▸ hl.lnk⟩⟩

/-- **The volume in order but for some files**, which are being worked on. -/
structure VolBut (a : Args) (N : Set ℤ) (s : St) : Prop where
  mounted : Mounted a s.dev
  agree : Agree a s.dev s.fsBitmap
  owned : ∀ f : ℤ, 0 ≤ f → f < tableLen → SecOwned a s f
  files : ∀ f, f ∉ N → f = 0 ∨ Live s.fsTable f → ∃ cl : List ℤ, cl.Nodup ∧ FileOk a s f cl
  free : ∀ f : ℤ, f ∉ N → 0 < f → f < tableLen → ¬ Live s.fsTable f → ∃ cl, FreeOk a s f cl
  distinct : ∀ f g : ℤ, 0 ≤ f → f < tableLen → 0 ≤ g → g < tableLen → f ≠ g →
    secAddr s.fsTable f ≠ 0 → secAddr s.fsTable f ≠ secAddr s.fsTable g
  lnk : ∀ f, f ∉ N → Live s.fsTable f → f ≠ 0 → (s.fsTable.entrs f).lnkCnt = 1

theorem VolOk.but (h : VolOk a s) (N : Set ℤ) : VolBut a N s :=
  ⟨h.mounted, h.agree, fun _ => h.owned, fun f _ => h.files f, fun f _ => h.free f, h.distinct,
    fun f _ => h.lnk f⟩

section But
variable {N : Set ℤ}

theorem VolBut.more (h : VolBut a N s) (f : ℤ) : VolBut a (insert f N) s :=
  ⟨h.mounted, h.agree, h.owned, fun g hg => h.files g fun hin => hg (Or.inr hin),
    fun g hg => h.free g fun hin => hg (Or.inr hin), h.distinct,
    fun g hg => h.lnk g fun hin => hg (Or.inr hin)⟩

/-- **Work on a file left out** keeps the rest of the volume in order. -/
theorem VolBut.step (hv : VolBut a N s) (hfN : f ∈ N) (h : OnFile a f s s') (hf0 : 0 ≤ f)
    (hf : f < tableLen) (howned : SecOwned a s' f) : VolBut a N s' := by
  have hL : 1024 ≤ a.lblkSz := hv.mounted.geo.le_lblkSz
  have hsec := hv.owned f hf0 hf
  have haddr : ∀ g, g ≠ f → secAddr s'.fsTable g = secAddr s.fsTable g := by
    intro g hne
    unfold secAddr
    rw [h.others g hne]
  -- the new address cluster of the file is nobody else's
  have hnew : ∀ g : ℤ, 0 ≤ g → g < tableLen → g ≠ f → secAddr s.fsTable g ≠ 0 →
      secAddr s'.fsTable f ≠ secAddr s.fsTable g := by
    intro g hg0 hg hne hnz heq
    rcases h.addr with hold | hz | hmine
    · exact hv.distinct g f hg0 hg hf0 hf hne hnz (heq.symm.trans hold)
    · exact hnz (heq.symm.trans hz)
    · have hclaim := (hv.owned g hg0 hg).resolve_left hnz 0
      have hm := hmine 0
      rw [heq, hclaim] at hm
      unfold tableLen at hf
      have hval : (u32 (-1)).toNat = 4294967295 := by decide
      rcases hm with hm | hm
      · rw [hm] at hval
        exact absurd hval (by decide)
      · rw [hm, toNat_u32_of_lt (by omega) (by omega)] at hval
        omega
  have hout : ∀ g, g ∉ N → g ≠ f := fun g hg heq => hg (heq ▸ hfN)
  refine ⟨h.mounted, h.agree, fun g hg0 hg => ?_, fun g hgN hg => ?_, fun g hgN hg0 hg hdead => ?_,
    fun g g' hg0 hg hg0' hg' hne hnz => ?_, fun g hgN hg hg0 => ?_⟩
  · by_cases hgf : g = f
    · rw [hgf]
      exact howned
    · exact h.secOwned hf0 hf hgf (hv.owned g hg0 hg)
  · have hgf := hout g hgN
    rw [live_congr (h.others g hgf)] at hg
    obtain ⟨hg0, hgt⟩ := fid_range hg
    obtain ⟨cl, hnd, hok⟩ := hv.files g hgN hg
    exact ⟨cl, hnd, hok.of_onFile h hf0 hf hgf hL hsec (hv.distinct g f hg0 hgt hf0 hf hgf) hg0 hgt⟩
  · have hgf := hout g hgN
    rw [live_congr (h.others g hgf)] at hdead
    obtain ⟨cl, hok⟩ := hv.free g hgN hg0 hg hdead
    exact ⟨cl, hok.of_onFile h hf0 hf hgf hL (hv.distinct g f (by omega) hg hf0 hf hgf) hg0 hg⟩
  · by_cases hgf : g = f
    · subst hgf
      rw [haddr g' (Ne.symm hne)]
      by_cases hz : secAddr s.fsTable g' = 0
      · rw [hz]
        exact hnz
      · exact hnew g' hg0' hg' (Ne.symm hne) hz
    · rw [haddr g hgf] at hnz ⊢
      by_cases hgf' : g' = f
      · subst hgf'
        exact Ne.symm (hnew g hg0 hg hgf hnz)
      · rw [haddr g' hgf']
        exact hv.distinct g g' hg0 hg hg0' hg' hne hnz
  · have hgf := hout g hgN
    rw [live_congr (h.others g hgf)] at hg
    rw [h.others g hgf]
    exact hv.lnk g hgN hg hg0

theorem VolBut.close (hv : VolBut a (insert f N) s)
    (hfile : f = 0 ∨ Live s.fsTable f → ∃ cl : List ℤ, cl.Nodup ∧ FileOk a s f cl)
    (hfree : 0 < f → ¬ Live s.fsTable f → ∃ cl, FreeOk a s f cl)
    (hlnk : Live s.fsTable f → f ≠ 0 → (s.fsTable.entrs f).lnkCnt = 1) : VolBut a N s := by
  refine ⟨hv.mounted, hv.agree, hv.owned, fun g hgN hg => ?_, fun g hgN hg0 hg hdead => ?_, hv.distinct,
    fun g hgN hg hg0 => ?_⟩
  · by_cases hgf : g = f
    · subst hgf
      exact hfile hg
    · exact hv.files g (fun hin => hin.elim hgf hgN) hg
  · by_cases hgf : g = f
    · subst hgf
      exact hfree hg0 hdead
    · exact hv.free g (fun hin => hin.elim hgf hgN) hg0 hg hdead
  · by_cases hgf : g = f
    · subst hgf
      exact hlnk hg hg0
    · exact hv.lnk g (fun hin => hin.elim hgf hgN) hg hg0

theorem VolBut.volOk (hv : VolBut a ∅ s) : VolOk a s :=
  ⟨hv.mounted, hv.agree, fun f => hv.files f (Set.notMem_empty f),
    fun f => hv.free f (Set.notMem_empty f), hv.distinct, fun f => hv.lnk f (Set.notMem_empty f)⟩

/-- **A step on the root or a file** that leaves it in order, with its links. -/
theorem VolBut.step_file (hv : VolBut a N s) (hf : f = 0 ∨ Live s.fsTable f) (hon : OnFile a f s s')
    (hok : ∃ cl : List ℤ, cl.Nodup ∧ FileOk a s' f cl)
    (hlnk : f ≠ 0 → (s'.fsTable.entrs f).lnkCnt = 1) : VolBut a N s' := by
  obtain ⟨h0, hft⟩ := fid_range hf
  obtain ⟨cl, hnd, hfile⟩ := hok
  refine ((hv.more f).step (Set.mem_insert f N) hon h0 hft hfile.owned).close
    (fun _ => ⟨cl, hnd, hfile⟩) (fun hpos hdead => ?_) fun _ => hlnk
  refine absurd (show Live s'.fsTable f from ⟨h0, hft, ?_⟩) hdead
  rw [hlnk (by omega)]
  decide

end But

/-- **Work on one file** keeps the volume in order, if the file comes out of it in order. -/
theorem VolOk.step (hv : VolOk a s) (h : OnFile a f s s') (hf0 : 0 ≤ f) (hf : f < tableLen)
    (hfile : f = 0 ∨ Live s'.fsTable f → ∃ cl : List ℤ, cl.Nodup ∧ FileOk a s' f cl)
    (hfree : 0 < f → ¬ Live s'.fsTable f → ∃ cl, FreeOk a s' f cl)
    (hlnk : Live s'.fsTable f → f ≠ 0 → (s'.fsTable.entrs f).lnkCnt = 1) : VolOk a s' := by
  refine (((hv.but (insert f ∅)).step (Set.mem_insert f ∅) h hf0 hf ?_).close hfile hfree hlnk).volOk
  by_cases hlive : f = 0 ∨ Live s'.fsTable f
  · obtain ⟨cl, -, hok⟩ := hfile hlive
    exact hok.owned
  · rw [not_or] at hlive
    obtain ⟨cl, hok⟩ := hfree (by omega) hlive.2
    exact hok.owned

/-- **A state that looks the same** is in order. -/
theorem VolOk.congr (hv : VolOk a s) (hm : Mounted a s'.dev) (ht : tab a s'.dev = tab a s.dev)
    (hd : data a s'.dev = data a s.dev)
    (hmem : s' = { s with dev := s'.dev }) : VolOk a s' := by
  have hfs : s'.fsTable = s.fsTable := by rw [hmem]
  have hclrs : s'.clrsCache = s.clrsCache := by rw [hmem]
  have hseq : s'.mapSeq = s.mapSeq := by rw [hmem]
  have hbm : s'.fsBitmap = s.fsBitmap := by rw [hmem]
  refine ⟨hm, hbm ▸ hv.agree.congr ht, fun f hf => ?_, fun f h0 hf hdead => ?_, hfs ▸ hv.distinct,
    hfs ▸ hv.lnk⟩
  · rw [hfs] at hf
    obtain ⟨cl, hnd, hok⟩ := hv.files f hf
    exact ⟨cl, hnd, hok.congr ht hd hfs (hclrs ▸ hok.cache) fun l hl => hok.cached l (hseq ▸ hl)⟩
  · rw [hfs] at hdead
    obtain ⟨cl, hok⟩ := hv.free f h0 hf hdead
    exact ⟨cl, hok.congr ht hd hfs (hclrs ▸ hok.cache)⟩

theorem VolOk.writeTable (hv : VolOk a s) : VolOk a (devWriteTable a s).2 := by
  rw [devWriteTable_putTable hv.mounted]
  obtain ⟨ht, hd⟩ := views_putTable hv.mounted s.fsTable
  exact hv.congr (hv.mounted.putTable _) ht hd rfl

end VolOk

/-! ### Looking things up -/

/-- **Nothing was done but lookups.** -/
structure Looked (a : Args) (s t : St) : Prop where
  dev : t.dev = s.dev
  bitmap : t.fsBitmap = s.fsBitmap
  table : t.fsTable = s.fsTable
  files : ∀ f cl, f = 0 ∨ Live s.fsTable f → FileOk a s f cl → FileOk a t f cl
  clrs : ∀ f : ℤ, 0 < f → f < tableLen → ¬ Live s.fsTable f →
    t.clrsCache = s.clrsCache ∨ t.clrsCache.fid ≠ f
  seqs : ∀ f : ℤ, 0 < f → f < tableLen → ¬ Live s.fsTable f → t.mapSeq f = s.mapSeq f
  kept : ∀ f l, s.mapSeq f = some l → t.mapSeq f = some l

theorem looked_eq_self {a : Args} {s : St} {f : ℤ} {c : ClrsCache} {l : List BlkInfo}
    (h : devGetFileSeq a s f = some (l, looked s f c l)) (hf : s.mapSeq f ≠ none) :
    looked s f c l = s := by
  obtain ⟨l', hl'⟩ := Option.ne_none_iff_exists'.mp hf
  rw [devGetFileSeq_cached hl'] at h
  exact (Prod.mk.inj (Option.some.inj h)).2.symm

theorem looked_kept {a : Args} {s : St} {f : ℤ} {c : ClrsCache} {l : List BlkInfo}
    (h : devGetFileSeq a s f = some (l, looked s f c l)) {g : ℤ} {l' : List BlkInfo}
    (hg : s.mapSeq g = some l') : (looked s f c l).mapSeq g = some l' := by
  by_cases hgf : g = f
  · subst hgf
    rw [looked_eq_self h (by rw [hg]; simp)]
    exact hg
  · exact (Function.update_of_ne hgf _ _).trans hg

section Looked
variable {a : Args} {s t u : St} {f : ℤ}

theorem Looked.refl (a : Args) (s : St) : Looked a s s :=
  ⟨rfl, rfl, rfl, fun _ _ _ h => h, fun _ _ _ _ => Or.inl rfl, fun _ _ _ _ => rfl, fun _ _ h => h⟩

theorem Looked.trans (h : Looked a s t) (h' : Looked a t u) : Looked a s u := by
  have htab := h.table
  refine ⟨h'.dev.trans h.dev, h'.bitmap.trans h.bitmap, h'.table.trans htab,
    fun f cl hf hok => h'.files f cl (by rw [htab]; exact hf) (h.files f cl hf hok),
    fun f h0 hf hdead => ?_,
    fun f h0 hf hdead => (h'.seqs f h0 hf (by rw [htab]; exact hdead)).trans (h.seqs f h0 hf hdead),
    fun f l hl => h'.kept f l (h.kept f l hl)⟩
  rcases h'.clrs f h0 hf (by rw [htab]; exact hdead) with heq | hne
  · rw [heq]
    exact h.clrs f h0 hf hdead
  · exact Or.inr hne

/-- What the cluster-list cache holds of a deleted file is what it held before. -/
theorem Looked.cacheOk (h : Looked a s t) {cl : List ℤ} (h0 : 0 < f) (hf : f < tableLen)
    (hdead : ¬ Live s.fsTable f) (hc : CacheOk s.clrsCache f cl) : CacheOk t.clrsCache f cl := by
  rcases h.clrs f h0 hf hdead with heq | hne
  · rw [heq]
    exact hc
  · exact CacheOk.of_ne hne

theorem Looked.sound (h : Looked a s t) (hs : Sound a s) : Sound a t := by
  refine ⟨by rw [h.dev]; exact hs.mounted, by rw [h.dev, h.bitmap]; exact hs.agree, fun f hf => ?_⟩
  rw [h.table] at hf
  obtain ⟨cl, hok⟩ := hs.files f hf
  exact ⟨cl, h.files f cl hf hok⟩

theorem Looked.volOk (h : Looked a s t) (hv : VolOk a s) : VolOk a t := by
  have htab := h.table
  refine ⟨by rw [h.dev]; exact hv.mounted, by rw [h.dev, h.bitmap]; exact hv.agree, fun f hf => ?_,
    fun f h0 hf hdead => ?_, by rw [htab]; exact hv.distinct, by rw [htab]; exact hv.lnk⟩
  · rw [htab] at hf
    obtain ⟨cl, hnd, hok⟩ := hv.files f hf
    exact ⟨cl, hnd, h.files f cl hf hok⟩
  · rw [htab] at hdead
    obtain ⟨cl, hok⟩ := hv.free f h0 hf hdead
    exact ⟨cl, hok.memory h.dev htab (h.cacheOk h0 hf hdead hok.cache)⟩

theorem Looked.ids (a : Args) (s : St) (m : Path → Option Stat) : Looked a s { s with mapFid := m } :=
  ⟨rfl, rfl, rfl, fun _ _ _ h => h.memory rfl rfl h.cache h.cached, fun _ _ _ _ => Or.inl rfl,
    fun _ _ _ _ => rfl, fun _ _ h => h⟩

/-- **Looking up the root or a file.** -/
theorem Sound.lookup (hs : Sound a s) (hf : f = 0 ∨ Live s.fsTable f) :
    ∃ l c cl, devGetFileSeq a s f = some (l, looked s f c l) ∧
      l.Perm (nodesAt a (tab a s.dev) f) ∧ (c = s.clrsCache ∨ Loaded c f cl) ∧ FileOk a s f cl ∧
      Looked a s (looked s f c l) := by
  obtain ⟨cl, hok⟩ := hs.files f hf
  obtain ⟨l, c, hop, hl, hc⟩ := hok.lookup hs.mounted
  have hfid : c = s.clrsCache ∨ c.fid = f := hc.imp_right Loaded.fid
  refine ⟨l, c, cl, hop, hl, hc, hok, rfl, rfl, rfl, fun g cl' hg hok' => ?_,
    fun g h0 hg hdead => ?_, fun g h0 hg hdead => ?_, fun g l' hg => looked_kept hop hg⟩
  · by_cases hgf : g = f
    · subst hgf
      obtain rfl := hok.unique hok'
      exact hok.looked_self hl hc
    · exact hok'.looked_other hgf hfid
  · refine hfid.imp_right fun hcf heq => ?_
    have hgf : g = f := heq.symm.trans hcf
    rw [hgf] at h0 hdead
    exact hf.elim (fun hz => by omega) hdead
  · refine Function.update_of_ne (fun hgf => ?_) _ _
    rw [hgf] at h0 hdead
    exact hf.elim (fun hz => by omega) hdead

/-- **Looking up anything** in a volume in order. -/
theorem VolOk.looked (hv : VolOk a s) {l : List BlkInfo}
    (h : devGetFileSeq a s f = some (l, t)) : Looked a s t := by
  by_cases hf : f = 0 ∨ Live s.fsTable f
  · obtain ⟨l', c, cl, hop, -, -, -, hlook⟩ := hv.sound.lookup hf
    obtain ⟨-, rfl⟩ := Prod.mk.inj (Option.some.inj (hop.symm.trans h))
    exact hlook
  · rw [not_or] at hf
    by_cases hin : 0 < f ∧ f < tableLen
    · obtain ⟨cl, hfree⟩ := hv.free f hin.1 hin.2 hf.2
      rw [hfree.lookup hv.mounted hf.1 h]
      exact Looked.refl a s
    · -- nothing is known of what is not in the table, but it is none of the files
      obtain ⟨c, rfl, hc⟩ := devGetFileSeq_frame h
      have hfid : c = s.clrsCache ∨ c.fid = f := by
        rcases hc with ⟨-, hc⟩ | ⟨-, n, hcnt⟩
        · exact Or.inl hc
        · obtain ⟨c', heq, hfid⟩ := devTblClrsCnt_frame hcnt
          exact Or.inr ((congrArg (fun u : St => u.clrsCache.fid) heq).trans hfid)
      have hout : ∀ g : ℤ, g = 0 ∨ 0 < g ∧ g < tableLen → g ≠ f := by
        rintro g hg rfl
        exact hg.elim hf.1 hin
      refine ⟨rfl, rfl, rfl, fun g cl hg hok => ?_, fun g h0 hg _ => ?_,
        fun g h0 hg _ => ?_, fun g l' hg => looked_kept h hg⟩
      · refine hok.looked_other (hout g ?_) hfid
        rcases hg with hz | hlive
        · exact Or.inl hz
        · have := hlive.nonneg
          by_cases hz : g = 0
          · exact Or.inl hz
          · exact Or.inr ⟨by omega, hlive.lt⟩
      · exact hfid.imp_right fun hcf heq => hout g (Or.inr ⟨h0, hg⟩) (heq.symm.trans hcf)
      · exact Function.update_of_ne (hout g (Or.inr ⟨h0, hg⟩)) _ _

end Looked

end Fcfs.Vol
