import Fcfs.Vol.Alloc
import Fcfs.Vol.DirWrite

/-! # Deleting a file

The loop of `dev_rm_file` frees what the clusters of a file hold of it (`rmLoop_eq`), so that nothing
but its cluster list is left (`Covers.freed`). Then the entry of the file is taken out of its
directory, which needs no block (`VolOk.rmFromDir`). Together: `dev_rm_file` keeps the volume in
order (`VolOk.rmFile`). -/

namespace Fcfs.Vol

open Lib.Bytes

/-! ### Freeing the blocks -/

/-- A cluster table without the blocks of the file. -/
def cleared (f : ℤ) (e : Fin 7 → BlkEnt) (i : Fin 7) : BlkEnt :=
  if (e i).fid = u32 f then ⟨0, 0⟩ else e i

theorem foldl_set_entrs (bids : List ℕ) (bl : BlockList) (i : Fin 7) :
    (bids.foldl (fun bl b => bl.set b 0 0) bl).entrs i =
      if i.val + 1 ∈ bids then ⟨0, 0⟩ else bl.entrs i := by
  induction bids generalizing bl with
  | nil => rfl
  | cons b bids ih =>
    rw [List.foldl_cons, ih, BlockList.set_entrs]
    by_cases hin : i.val + 1 ∈ bids
    · rw [if_pos hin, if_pos (List.mem_cons_of_mem _ hin)]
    · by_cases hb : i.val + 1 = b
      · rw [if_neg hin, if_pos hb, if_pos (hb ▸ List.mem_cons_self)]
      · rw [if_neg hin, if_neg hb, if_neg fun h => (List.mem_cons.mp h).elim hb hin]

theorem foldl_set_own (f : ℤ) (bl : BlockList) :
    ((ownBids bl.entrs f).foldl (fun bl b => bl.set b 0 0) bl).entrs = cleared f bl.entrs := by
  funext i
  rw [foldl_set_entrs]
  unfold cleared
  by_cases hf : (bl.entrs i).fid = u32 f
  · rw [if_pos hf, if_pos (mem_ownBids.mpr ⟨i, rfl, hf⟩)]
  · refine (if_neg fun hin => ?_).trans (if_neg hf).symm
    obtain ⟨j, hj, hfid⟩ := mem_ownBids.mp hin
    obtain rfl : i = j := Fin.ext (by omega)
    exact hf hfid

theorem cleared_cleared (f : ℤ) (e : Fin 7 → BlkEnt) : cleared f (cleared f e) = cleared f e := by
  funext i
  by_cases hf : (e i).fid = u32 f
  · have hz : cleared f e i = ⟨0, 0⟩ := if_pos hf
    rw [cleared, hz, ite_self]
  · have he : cleared f e i = e i := if_neg hf
    rw [cleared, he, if_neg hf]

theorem cleared_of_nil {f : ℤ} {e : Fin 7 → BlkEnt} (h : ownBids e f = []) : cleared f e = e := by
  funext i
  refine if_neg fun hf => ?_
  have hin : i.val + 1 ∈ ownBids e f := mem_ownBids.mpr ⟨i, rfl, hf⟩
  rw [h] at hin
  cases hin

/-- **What freeing the blocks in some clusters does.** -/
structure Freed (a : Args) (f : ℤ) (cs : List ℤ) (s s' : St) : Prop where
  mounted : Mounted a s'.dev
  agree : Agree a s'.dev s'.fsBitmap
  mem : s' = { s with dev := s'.dev, fsBitmap := s'.fsBitmap }
  tabs : ∀ c, tab a s'.dev c = if c ∈ cs then cleared f (tab a s.dev c) else tab a s.dev c
  blks : data a s'.dev = data a s.dev
  log : ∃ new, devLog s' = new ++ devLog s ∧ ∀ e ∈ new, 1 ≤ e.1 ∧ e.2 = 0

section Loop
variable {a : Args} {f : ℤ} {cl : List ℤ} (hrange : ∀ c ∈ cl, 1 ≤ c ∧ c < a.cluCnt)
  (hbound : cl.length ≤ s1Len a)
include hrange hbound

/-- **The loop of `dev_rm_file`** frees the blocks in the clusters of the list. -/
theorem rmLoop_eq : ∀ {n i : ℕ} {s : St}, Mounted a s.dev → Agree a s.dev s.fsBitmap →
    Loaded s.clrsCache f cl → i + n = cl.length →
    ∃ s', rmLoop a f n i s = some s' ∧ Freed a f (cl.drop i) s s'
  | 0, i, s, hm, hag, _, hlen => by
    refine ⟨s, rfl, hm, hag, rfl, fun c => ?_, rfl, [], rfl, fun _ he => absurd he List.not_mem_nil⟩
    rw [List.drop_eq_nil_of_le (by omega), if_neg List.not_mem_nil]
  | n + 1, i, s, hm, hag, hl, hlen => by
    have hclu := hm.cluCnt_lt
    have hi : i < cl.length := by omega
    obtain ⟨c, hc⟩ : ∃ c, c = cl[i] := ⟨_, rfl⟩
    obtain ⟨h1, hlt⟩ : 1 ≤ c ∧ c < a.cluCnt := by
      rw [hc]
      exact hrange _ (List.getElem_mem hi)
    have hget : devTblClrsGet a s f i = some (cl.getD i 0, s) :=
      devTblClrsGet_eq hl (fun x hx => by have := hrange x hx; omega) hi (by omega)
    rw [List.getD_eq_getElem _ _ hi, ← hc] at hget
    have hdrop : cl.drop i = c :: cl.drop (i + 1) := by
      rw [hc]
      exact List.drop_eq_getElem_cons hi
    have hread := hm.devReadCtable_eq (show 0 ≤ c by omega) hlt
    have hown : devGetBlocks (ctable a s.dev c) f = ownBids (tab a s.dev c) f :=
      devGetBlocks_ctable a s.dev c f
    have hne : ¬ c = 0 := by omega
    simp only [rmLoop, hget, hread, hown, hne, if_false, Option.bind_eq_bind, Option.bind_some]
    by_cases hnil : ownBids (tab a s.dev c) f = []
    · -- nothing to free here
      obtain ⟨s', hop, hfr⟩ := rmLoop_eq (n := n) (i := i + 1) hm hag hl (by omega)
      refine ⟨s', by rw [if_pos hnil]; exact hop, hfr.mounted, hfr.agree, hfr.mem, fun c' => ?_, hfr.blks,
        hfr.log⟩
      rw [hfr.tabs, hdrop]
      by_cases hc' : c' = c
      · rw [hc', cleared_of_nil hnil, ite_self, ite_self]
      · simp only [List.mem_cons, hc', false_or]
    · obtain ⟨d, bm, hop, hm', ht, hd, hlog, hbit⟩ := writeCtable_updBitmap hm
        ((ownBids (tab a s.dev c) f).foldl (fun bl b => bl.set b 0 0) (ctable a s.dev c))
        (show 0 ≤ c by omega) hlt
      have hent : ((ownBids (tab a s.dev c) f).foldl (fun bl b => bl.set b 0 0)
          (ctable a s.dev c)).entrs = cleared f (tab a s.dev c) := foldl_set_own f (ctable a s.dev c)
      have hag' : Agree a d bm := hag.update (by omega) ht hbit
      rw [hent] at ht
      obtain ⟨s', hrec, hfr⟩ := rmLoop_eq (n := n) (i := i + 1) (s := { s with dev := d, fsBitmap := bm })
        hm' hag' hl (by omega)
      obtain ⟨new, hslog, hnew⟩ := hfr.log
      have hmem := hfr.mem
      rw [devWriteCtable_putTab hm _ (by omega) hlt, Option.bind_eq_bind, Option.bind_some] at hop
      refine ⟨s', ?_, hfr.mounted, hfr.agree, hmem, fun c' => ?_, hfr.blks.trans hd, new ++ [(c, 0)], ?_,
        fun e he => ?_⟩
      · rw [if_neg hnil]
        refine Option.bind_eq_some_iff.mpr ⟨_, devWriteCtable_putTab hm _ (by omega) hlt, ?_⟩
        exact Option.bind_eq_some_iff.mpr ⟨_, hop, hrec⟩
      · rw [hfr.tabs, hdrop]
        show (if c' ∈ cl.drop (i + 1) then cleared f (tab a d c') else tab a d c') = _
        rw [ht]
        by_cases hc' : c' = c
        · rw [hc', Function.update_self, cleared_cleared, ite_self, if_pos List.mem_cons_self]
        · rw [Function.update_of_ne hc']
          simp only [List.mem_cons, hc', false_or]
      · rw [hslog, List.append_assoc]
        exact congrArg _ hlog
      · rcases List.mem_append.mp he with he | he
        · exact hnew e he
        · rw [List.mem_singleton.mp he]
          exact ⟨h1, rfl⟩

end Loop

/-! ### Nothing is left -/

section File
variable {a : Args} {s s' : St} {f : ℤ} {cl cs : List ℤ}

theorem Freed.table (h : Freed a f cs s s') : s'.fsTable = s.fsTable := by rw [h.mem]

theorem Freed.onFile (h : Freed a f cs s s') (hcs : ∀ c ∈ cs, 1 ≤ c) : OnFile a f s s' := by
  have hmem := h.mem
  obtain ⟨new, hlog, hnew⟩ := h.log
  refine ⟨h.mounted, h.agree, by rw [hmem], Or.inl (by rw [hmem]), fun _ _ => by rw [hmem],
    fun g _ => by rw [h.table], Or.inl (by rw [h.table]), fun c i => ?_,
    fun c b => Or.inl (by rw [h.blks]), new, hlog, fun e he => Or.inl (hnew e he)⟩
  rw [h.tabs]
  by_cases hc : c ∈ cs
  · rw [if_pos hc]
    by_cases hfid : (tab a s.dev c i).fid = u32 f
    · have hz : cleared f (tab a s.dev c) i = ⟨0, 0⟩ := if_pos hfid
      rw [hz]
      exact Or.inr ⟨hcs c hc, Or.inr hfid, Or.inl (Or.inl rfl)⟩
    · exact Or.inl (if_neg hfid)
  · rw [if_neg hc]
    exact Or.inl rfl

theorem Stored.of_clrs {d : Dev} {t t' : FcfsTable} (h : Stored a d t f cl)
    (he : (t'.entrs f).clrs = (t.entrs f).clrs) : Stored a d t' f cl := by
  have hsec : secAddr t' f = secAddr t f := by
    unfold secAddr
    rw [he]
  exact ⟨⟨fun i hi => he ▸ h.slots i hi, h.range, h.bound, hsec ▸ h.short, hsec ▸ h.long⟩, h.cap,
    hsec ▸ h.words⟩

/-- **The cluster list has every block of the file**, and can be read back. -/
structure Covers (a : Args) (s : St) (f : ℤ) (cl : List ℤ) : Prop where
  stored : Stored a s.dev s.fsTable f cl
  owned : SecOwned a s f
  cache : CacheOk s.clrsCache f cl
  all : ∀ c : ℤ, 1 ≤ c → c < a.cluCnt → ∀ i, (tab a s.dev c i).fid = u32 f → c ∈ cl

theorem FileOk.covers (h : FileOk a s f cl) (hf : f ≠ 0) : Covers a s f cl := by
  refine ⟨h.stored hf, h.owned, h.cache, fun c h1 hc i hfid => ?_⟩
  have hnode : (⟨c, i.val + 1, (tab a s.dev c i).num.toNat⟩ : BlkInfo) ∈ nodesAt a (tab a s.dev) f :=
    (mem_nodesAt hf).mpr ⟨⟨h1, hc⟩, i, rfl, hfid, rfl⟩
  exact (mem_ownNodes.mp (h.nodes.symm.mem_iff.mp hnode)).1

theorem Covers.cleared_all (h : Covers a s f cl) (hag : Agree a s.dev s.fsBitmap) (hf0 : 0 < f)
    (hft : f < tableLen) (c : ℤ) :
    (if c ∈ cl then cleared f (tab a s.dev c) else tab a s.dev c) = cleared f (tab a s.dev c) := by
  by_cases hin : c ∈ cl
  · exact if_pos hin
  · refine (if_neg hin).trans (funext fun i => (if_neg fun hfid => hin ?_).symm)
    have hz := (u32_fid hf0 hft).1
    have hrange : 1 ≤ c ∧ c < a.cluCnt := by
      by_contra hout
      by_cases h0 : c = 0
      · rw [h0, hag.root] at hfid
        exact hz hfid.symm
      · -- nothing is read outside the volume
        have htab : tab a s.dev c = fun _ => ⟨0, 0⟩ := by
          unfold tab ctable
          rw [if_neg (by omega)]
          rfl
        rw [htab] at hfid
        exact hz hfid.symm
    exact h.all c hrange.1 hrange.2 i hfid

/-- The entry of a file with a link less. -/
def unlinked (e : TableEntry) : TableEntry := { e with lnkCnt := e.lnkCnt - 1 }

/-- The state `dev_rm_file` frees the blocks in. -/
def dropLink (s : St) (f : ℤ) (c : ClrsCache) : St :=
  setEntry { s with clrsCache := c } f (unlinked (s.fsTable.entrs f))

/-- **Of a deleted file nothing is left** but the cluster list. -/
theorem Covers.freed (hm : Mounted a s.dev) (hag : Agree a s.dev s.fsBitmap) (hcov : Covers a s f cl)
    (hf0 : 0 < f) (hft : f < tableLen) :
    ∃ c t, devTblClrsCnt a s f = some ((cl.length : ℤ), { s with clrsCache := c }) ∧
      rmLoop a f cl.length 0 (dropLink s f c) = some t ∧ OnFile a f s t ∧ FreeOk a t f cl ∧
      (∀ c, tab a t.dev c = cleared f (tab a s.dev c)) ∧ Loaded c f cl ∧
      t = { dropLink s f c with dev := t.dev, fsBitmap := t.fsBitmap } := by
  have hne : f ≠ 0 := by omega
  have hst := hcov.stored
  obtain ⟨c, hcnt, hl⟩ := devTblClrsCnt_eq hm hne hst hcov.cache
  have hmem : OnFile a f s { s with clrsCache := c } :=
    OnFile.memory hm hag rfl rfl rfl rfl (Or.inr hl.fid) fun _ _ => rfl
  have hdrop : OnFile a f s (dropLink s f c) :=
    hmem.trans (onFile_setEntry hm hag (Or.inl rfl))
  obtain ⟨t, hop, hfr⟩ := rmLoop_eq (s := dropLink s f c) hst.range hst.bound (n := cl.length) (i := 0)
    hm hag hl (by omega)
  rw [List.drop_zero] at hfr
  have htab : ∀ c, tab a t.dev c = cleared f (tab a s.dev c) := fun c =>
    (hfr.tabs c).trans (hcov.cleared_all hag hf0 hft c)
  have hclrs : (t.fsTable.entrs f).clrs = (s.fsTable.entrs f).clrs := by
    rw [hfr.table]
    unfold dropLink
    rw [setEntry_self]
    rfl
  have hsec : secAddr t.fsTable f = secAddr s.fsTable f := by
    unfold secAddr
    rw [hclrs]
  have hmemt := hfr.mem
  refine ⟨c, t, hcnt, hop, hdrop.trans (hfr.onFile fun c hc => (hst.range c hc).1),
    ⟨(hst.views hfr.blks).of_clrs hclrs, ?_, ?_, fun c _ _ i => ?_⟩, htab, hl, hfr.mem⟩
  · unfold SecOwned
    rw [hsec, htab]
    refine hcov.owned.imp_right fun hall i => ?_
    have hclaim : (tab a s.dev (secAddr s.fsTable f) i).fid ≠ u32 f := by
      rw [hall i]
      exact fun heq => (u32_fid hf0 hft).2 heq.symm
    have hkeep : cleared f (tab a s.dev (secAddr s.fsTable f)) i = tab a s.dev (secAddr s.fsTable f) i :=
      if_neg hclaim
    rw [hkeep]
    exact hall i
  · rw [hmemt]
    exact hl.cacheOk
  · rw [htab]
    unfold cleared
    by_cases hfid : (tab a s.dev c i).fid = u32 f
    · rw [if_pos hfid]
      exact fun heq => (u32_fid hf0 hft).1 heq.symm
    · rw [if_neg hfid]
      exact hfid

end File

/-! ### The entry in the directory -/

theorem dropEntry_length {dirs ent : List DirEntry} {f : ℤ} (h : dropEntry dirs f = some ent) :
    ent.length = dirs.length - 1 := by
  unfold dropEntry at h
  split at h
  · cases h
  · obtain rfl := Option.some.inj h
    simp

/-- **What taking an entry out of a directory leaves**: the cluster tables, the bitmap and the table,
and of deleted files what is cached. -/
structure Dropped (a : Args) (p : ℤ) (s s' : St) : Prop where
  tabs : tab a s'.dev = tab a s.dev
  bitmap : s'.fsBitmap = s.fsBitmap
  table : s'.fsTable = s.fsTable
  ids : s'.mapFid = s.mapFid
  cached : s'.mapSeq p ≠ none
  clrs : s.mapSeq p ≠ none → s'.clrsCache = s.clrsCache
  dead : ∀ f : ℤ, 0 < f → f < tableLen → ¬ Live s.fsTable f → f ≠ p →
    (s'.clrsCache = s.clrsCache ∨ s'.clrsCache.fid ≠ f) ∧ s'.mapSeq f = s.mapSeq f

section Remove
variable {a : Args} {s : St} {f p : ℤ}

/-- **`dev_rm_from_dir`** needs no block, and keeps the volume in order. -/
theorem VolOk.rmFromDir (hv : VolOk a s) (hsm : a.cluCnt ≤ 65535) (hp : p = 0 ∨ Live s.fsTable p)
    (f : ℤ) : ∃ r s', devRmFromDir a s p f = some (r, s') ∧ VolOk a s' ∧ Dropped a p s s' ∧
      dirOf a s'.dev p = (dropEntry (dirOf a s.dev p) f).getD (dirOf a s.dev p) ∧
      ∀ g : ℤ, 0 ≤ g → g < tableLen → g ≠ p → fileBytes a s'.dev g = fileBytes a s.dev g := by
  obtain ⟨r, t, hop, hr, hlook, hids, hself, hin⟩ := devReadDir_eq hv.sound hp
  have hvt := hlook.volOk hv
  have hdev := hlook.dev
  have hdir : dirOf a t.dev p = dirOf a s.dev p := by rw [hdev]
  have hpt : p = 0 ∨ Live t.fsTable p := by
    rw [hlook.table]
    exact hp
  obtain ⟨hp0, hplt⟩ := fid_range hp
  unfold devRmFromDir
  rw [hop, Option.bind_eq_bind, Option.bind_some]
  dsimp only
  rw [hr]
  cases hdrop : dropEntry (dirOf a s.dev p) f with
  | none =>
    exact ⟨_, t, rfl, hvt, ⟨by rw [hdev], hlook.bitmap, hlook.table, hids, hin,
      fun hseq => congrArg St.clrsCache (hself hseq),
      fun g h0 hg hdead _ => ⟨hlook.clrs g h0 hg hdead, hlook.seqs g h0 hg hdead⟩⟩, hdir,
      fun g _ _ _ => by rw [hdev]⟩
  | some ent =>
    obtain ⟨cl, hnd, hok⟩ := hvt.files p hpt
    have hle := hok.dirNeed_le hvt.mounted (n := ent.length) (by rw [hdir, dropEntry_length hdrop]; omega)
    obtain ⟨r', s', hw, hwr, hdir', -, hsame⟩ := hok.writeDir hvt.mounted hvt.agree hsm hnd hp0 hplt ent
      (fits_of_le hle)
    obtain ⟨htab, hbm, htbl, -, hclrs⟩ := hsame hle
    refine ⟨0, s', Option.bind_eq_some_iff.mpr ⟨_, hw, rfl⟩, hvt.step_file hpt hwr,
      ⟨htab.trans (by rw [hdev]), hbm.trans hlook.bitmap, htbl.trans hlook.table, hwr.onFile.ids.trans hids,
        ?_, fun hseq => ?_, fun g h0 hg hdead hgp => ⟨?_, ?_⟩⟩, hdir', fun g hg0 hg hgp => ?_⟩
    · obtain ⟨l, hl, -⟩ := hwr.seq
      rw [hl]
      simp
    · obtain rfl := hself hseq
      exact hclrs hseq
    · rcases hwr.onFile.clrs with heq | hfid
      · rw [heq]
        exact hlook.clrs g h0 hg hdead
      · exact Or.inr fun heq => hgp (heq.symm.trans hfid)
    · rw [hwr.onFile.seqs g hgp]
      exact hlook.seqs g h0 hg hdead
    · rw [hwr.onFile.fileBytes hp0 hplt hgp hg0 hg hok.owned, hdev]

/-- **What deleting a file leaves.** -/
structure Removed (a : Args) (f p : ℤ) (s s' : St) : Prop where
  ids : s'.mapFid = s.mapFid
  seq : s'.mapSeq f = s.mapSeq f
  cached : s'.mapSeq p ≠ none
  clrs : s'.clrsCache.fid = f → ∃ cl, FileOk a s f cl ∧ Loaded s'.clrsCache f cl
  loaded : s.mapSeq p ≠ none → s'.clrsCache.fid = f
  tabs : ∀ c, tab a s'.dev c = cleared f (tab a s.dev c)
  entry : s'.fsTable.entrs f = unlinked (s.fsTable.entrs f)
  others : ∀ g, g ≠ f → s'.fsTable.entrs g = s.fsTable.entrs g
  dir : dirOf a s'.dev p = (dropEntry (dirOf a s.dev p) f).getD (dirOf a s.dev p)

/-- **`dev_rm_file` keeps the volume in order**, and the bytes of other files. -/
theorem VolOk.rmFile_others (hv : VolOk a s) (hsm : a.cluCnt ≤ 65535) (hf : Live s.fsTable f) (hf0 : f ≠ 0)
    (hp : p = 0 ∨ Live s.fsTable p) (hne : p ≠ f) :
    ∃ s', devRmFile a s f p = some (0, s') ∧ VolOk a s' ∧ Removed a f p s s' ∧
      ∀ g : ℤ, 0 ≤ g → g < tableLen → g ≠ f → g ≠ p → fileBytes a s'.dev g = fileBytes a s.dev g := by
  have h0 := hf.nonneg
  have hft := hf.lt
  obtain ⟨cl, -, hok⟩ := hv.files f (Or.inr hf)
  obtain ⟨c, t, hcnt, hrm, hon, hfree, htab, hl, hmem⟩ := (hok.covers hf0).freed hv.mounted hv.agree
    (by omega) hft
  have hent : t.fsTable.entrs f = unlinked (s.fsTable.entrs f) := by
    rw [hmem]
    exact setEntry_self _ _ _
  have hclrst : t.clrsCache = c := by rw [hmem]; rfl
  have hseqt : t.mapSeq = s.mapSeq := by rw [hmem]; rfl
  have hzero : (unlinked (s.fsTable.entrs f)).lnkCnt = 0 := by
    unfold unlinked
    rw [hv.lnk f hf hf0]
    rfl
  have hdead : ¬ Live t.fsTable f := fun hlive => hlive.lnk (by rw [hent]; exact hzero)
  have hvt : VolOk a t := hv.step hon h0 hft
    (fun hlive => absurd (hlive.resolve_left hf0) hdead) (fun _ _ => ⟨cl, hfree⟩)
    fun hlive => absurd hlive hdead
  have hpt : p = 0 ∨ Live t.fsTable p := by
    rw [live_congr (hon.others p hne)]
    exact hp
  obtain ⟨hp0, hplt⟩ := fid_range hp
  -- the directory is another file
  have hdirt : dirOf a t.dev p = dirOf a s.dev p := by
    rw [dirOf_eq, hon.fileBytes h0 hft hne hp0 hplt hok.owned, ← dirOf_eq]
  obtain ⟨r, u, hdel, hvu, hsame, hdir, hbytes⟩ := hvt.rmFromDir hsm hpt f
  have hdev : (devWriteTable a u).2 = { u with dev := putTable a u.dev u.fsTable } := by
    rw [devWriteTable_putTable hvu.mounted]
  obtain ⟨htabw, hdataw⟩ := views_putTable hvu.mounted u.fsTable
  have hview : ∀ g, fileBytes a (putTable a u.dev u.fsTable) g = fileBytes a u.dev g := fun g => by
    unfold fileBytes
    rw [htabw, content_congr fun b _ => congrFun (congrFun hdataw b.cid) b.bid]
  have hlen : cl.length < 2 ^ 31 := (hok.stored hf0).slotted.length_lt hv.mounted
  obtain ⟨hclrsu, hsequ⟩ := hsame.dead f (by omega) hft hdead (Ne.symm hne)
  refine ⟨(devWriteTable a u).2, ?_, hvu.writeTable, ⟨?_, ?_, ?_, fun hfid => ?_, fun hseq => ?_,
    fun c => ?_, ?_, fun g hg => ?_, ?_⟩, fun g hg0 hg hgf hgp => ?_⟩
  · unfold devRmFile
    rw [if_neg hf0]
    refine Option.bind_eq_some_iff.mpr ⟨_, hcnt, ?_⟩
    show (if (unlinked (s.fsTable.entrs f)).lnkCnt ≠ 0 then _ else _) = _
    rw [if_neg (not_not.mpr hzero), toSizeT_natCast hlen]
    refine Option.bind_eq_some_iff.mpr ⟨_, hrm, ?_⟩
    exact Option.bind_eq_some_iff.mpr ⟨_, hdel, rfl⟩
  · rw [hdev]
    exact hsame.ids.trans hon.ids
  · rw [hdev]
    exact hsequ.trans (congrFun hseqt f)
  · rw [hdev]
    exact hsame.cached
  · rw [hdev] at hfid ⊢
    refine ⟨cl, hok, ?_⟩
    rcases hclrsu with heq | hne'
    · show Loaded u.clrsCache f cl
      rw [heq, hclrst]
      exact hl
    · exact absurd hfid hne'
  · rw [hdev]
    show u.clrsCache.fid = f
    rw [hsame.clrs (by rw [hseqt]; exact hseq), hclrst]
    exact hl.fid
  · rw [hdev]
    show tab a (putTable a u.dev u.fsTable) c = _
    rw [htabw, hsame.tabs, htab]
  · rw [hdev]
    show u.fsTable.entrs f = _
    rw [hsame.table, hent]
  · rw [hdev]
    show u.fsTable.entrs g = _
    rw [hsame.table]
    exact hon.others g hg
  · rw [hdev]
    show dirOf a (putTable a u.dev u.fsTable) p = _
    rw [dirOf_eq, hview, ← dirOf_eq, hdir, hdirt]
  · rw [hdev]
    show fileBytes a (putTable a u.dev u.fsTable) g = _
    rw [hview, hbytes g hg0 hg hgp, hon.fileBytes h0 hft hgf hg0 hg hok.owned]

/-- **`dev_rm_file` keeps the volume in order.** -/
theorem VolOk.rmFile (hv : VolOk a s) (hsm : a.cluCnt ≤ 65535) (hf : Live s.fsTable f) (hf0 : f ≠ 0)
    (hp : p = 0 ∨ Live s.fsTable p) (hne : p ≠ f) :
    ∃ s', devRmFile a s f p = some (0, s') ∧ VolOk a s' ∧ Removed a f p s s' := by
  obtain ⟨s', hop, hvs, hrem, -⟩ := hv.rmFile_others hsm hf hf0 hp hne
  exact ⟨s', hop, hvs, hrem⟩

end Remove

end Fcfs.Vol
