import Fcfs.Vol.Delete
import Fcfs.Vol.DirBack

/-! # Deleting a file leaves the others alone

`dev_rm_file` works on two files one after the other: on the deleted one, whose blocks it frees, and on
its directory, whose blocks it writes. On a consistent volume whose cluster lists are in order both leave
every other file as it was (`erases`). -/

namespace Fcfs.Vol

open Lib.Bytes

/-- **The file `f` is deleted and nothing else is disturbed.** -/
structure Erased (a : Args) (s : St) (f p : ℤ) (s' : St) : Prop where
  tabs : ∀ c i, tab a s'.dev c i = if (tab a s.dev c i).fid = u32 f then ⟨0, 0⟩ else tab a s.dev c i
  agree : Agree a s'.dev s'.fsBitmap
  lnk : (s'.fsTable.entrs f).lnkCnt = 0
  entrs : ∀ g, g ≠ f → s'.fsTable.entrs g = s.fsTable.entrs g
  dir : ∀ old, ReadsAs a s p old → ∃ new, ReadsAs a s' p new ∧ new.Perm (old.filter fun e => fidOf e ≠ f)
  others : ∀ g, g = 0 ∨ Live s.fsTable g → g ≠ f → g ≠ p → Untouched a g s s'

/-- `dev_rm_file` deletes it. -/
def Erases (a : Args) (s : St) (f p : ℤ) : Prop :=
  ∃ s', devRmFile a s f p = some (0, s') ∧ Erased a s f p s'

section Run
variable {a : Args} {s : St} {f p : ℤ} {cl clp : List ℤ}

theorem FirmFile.covers (h : FirmFile a s f cl) (hm : Mounted a s.dev) (hf : f ≠ 0) : Covers a s f cl := by
  refine ⟨h.stored, h.owned, h.cache, fun c h1 hc i hfid => ?_⟩
  obtain ⟨l, t, ht⟩ := h.rebuilt
  have hl := h.lists l (Or.inr ⟨t, ht⟩)
  obtain ⟨b, hb, hblk⟩ := List.mem_map.mp ((hl.mem (c, i.val + 1)).mpr
    ⟨show 0 ≤ c by omega, hc, i, rfl, hfid⟩)
  obtain ⟨u, -, hop⟩ := devGetFileSeq_rebuild (s := cacheSeqRm s f) hm hf h.stored h.cache
    (mapSeq_cacheSeqRm s f)
  rw [ht] at hop
  split_ifs at hop with hnil
  obtain ⟨rfl, -⟩ := Prod.mk.inj (Option.some.inj hop)
  have hcid : b.cid = c := congrArg Prod.fst hblk
  exact hcid ▸ (mem_ownNodes.mp ((sortNodes_perm _).mem_iff.mp hb)).1

variable {l : List BlkInfo} {old : Option (List DirEntry)} {ent : List DirEntry}

theorem DirRead.of_untouched {t w : St} (h : DirRead a p l old s w) (hms : Mounted a s.dev)
    (hun : Untouched a p s t) (hm : Mounted a t.dev) : ∃ u, DirRead a p l old t u := by
  obtain ⟨u, hop⟩ := lookup_of_rebuilt hun.cached hun.rebuilt h.seq
  have hcont := hun.content l (seqOf_of_lookup h.seq)
  have hsz := h.size
  rw [h.dev] at hsz
  have hold := (DirRead.of_seq hms h.seq h.ok hsz).read
  rw [← hcont] at hsz hold
  obtain rfl := (Prod.mk.inj (Option.some.inj (h.read.symm.trans hold))).1
  exact ⟨u, DirRead.of_seq hm hop h.ok hsz⟩

/-- **The two steps of `dev_rm_file`**: after the first one the file is gone, the second one is work on its
directory. -/
structure RmSteps (a : Args) (f p : ℤ) (l : List BlkInfo) (ent : List DirEntry) (s t s' : St) : Prop where
  first : OnFile a f s t
  owned : SecOwned a t f
  cleared : ∀ c, tab a t.dev c = cleared f (tab a s.dev c)
  second : OnFile a p t s'
  run : devRmFile a s f p = some (0, s')
  tabs : tab a s'.dev = tab a t.dev
  lnk : (s'.fsTable.entrs f).lnkCnt = 0
  entrs : ∀ g, g ≠ f → s'.fsTable.entrs g = s.fsTable.entrs g
  reads : ReadsAs a s' p ent
  content : ∀ k < l.length * a.lblkSz, content a s'.dev l k = dirBuf a ent k

theorem rmFile_steps (hm : Mounted a s.dev) (hag : Agree a s.dev s.fsBitmap) (hcov : Covers a s f cl)
    (hf : 0 < f ∧ f < tableLen) (hlnk : (s.fsTable.entrs f).lnkCnt = 1) (hfirm : Firm a s p clp)
    (hp : 0 ≤ p ∧ p < tableLen) (hne : p ≠ f)
    (hdis : secAddr s.fsTable p ≠ 0 → secAddr s.fsTable p ≠ secAddr s.fsTable f) {w : St}
    (hread : DirRead a p l old s w) (hdrop : dropEntry (old.getD []) f = some ent) :
    ∃ t s', RmSteps a f p l ent s t s' := by
  have hf0 : f ≠ 0 := by omega
  obtain ⟨c, t, hcnt, hrm, hon, hfree, htab, -, hmem⟩ := hcov.freed hm hag hf.1 hf.2
  obtain ⟨hun, hfirmt⟩ := hfirm.untouched hm hon ⟨by omega, hf.2⟩ hp hne hcov.owned hdis
  obtain ⟨u, hreadt⟩ := hread.of_untouched hm hun hon.mounted
  obtain ⟨v, hdel, hw, hcached, hfit, hcont⟩ := hreadt.hit hon.mounted hdrop
  have hlook := onFile_lookup hon.mounted hon.agree hreadt.seq
  have hwrote : OnFile a p t v := hlook.trans (hw.onFile hlook.agree fun b hb =>
    avail_lookup hreadt.seq (hfirmt.avail (seqOf_of_lookup hreadt.seq) b hb))
  have hlast := Ext.writeTable hw.mounted hwrote.agree p
  have hdev : (devWriteTable a v).2 = { v with dev := putTable a v.dev v.fsTable } := by
    rw [devWriteTable_putTable hw.mounted]
  obtain ⟨htabw, hdataw⟩ := views_putTable hw.mounted v.fsTable
  have hmemv := hw.mem
  have htblu : u.fsTable = t.fsTable := by
    obtain ⟨c', rfl, -⟩ := devGetFileSeq_frame hreadt.seq
    rfl
  have htbl : (devWriteTable a v).2.fsTable = t.fsTable := by
    rw [hdev]
    show v.fsTable = t.fsTable
    rw [hmemv]
    exact htblu
  have hent : t.fsTable.entrs f = unlinked (s.fsTable.entrs f) := by
    rw [hmem]
    exact setEntry_self _ _ _
  have hzero : (unlinked (s.fsTable.entrs f)).lnkCnt = 0 := by
    unfold unlinked
    rw [hlnk]
    rfl
  have hlen : cl.length < 2 ^ 31 := hcov.stored.slotted.length_lt hm
  have hcontw : ∀ k < l.length * a.lblkSz, content a (devWriteTable a v).2.dev l k = dirBuf a ent k := by
    rw [hdev]
    show ∀ k < l.length * a.lblkSz, content a (putTable a v.dev v.fsTable) l k = _
    rw [content_congr fun b _ => congrFun (congrFun hdataw b.cid) b.bid]
    exact hcont
  have hcachedw : (devWriteTable a v).2.mapSeq p = some l := by
    rw [hdev]
    exact hcached
  refine ⟨t, (devWriteTable a v).2, hon, hfree.owned, htab,
    hwrote.trans (hlast.onFile (Or.inl (by rw [hdev]))), ?_, ?_, ?_, fun g hg => ?_,
    readsAs_written hlast.mounted hcachedw hread.ok hfit hcontw, hcontw⟩
  · unfold devRmFile
    rw [if_neg hf0]
    refine Option.bind_eq_some_iff.mpr ⟨_, hcnt, ?_⟩
    show (if (unlinked (s.fsTable.entrs f)).lnkCnt ≠ 0 then _ else _) = _
    rw [if_neg (not_not.mpr hzero), toSizeT_natCast hlen]
    exact Option.bind_eq_some_iff.mpr ⟨_, hrm, Option.bind_eq_some_iff.mpr ⟨_, hdel, rfl⟩⟩
  · rw [hdev]
    show tab a (putTable a v.dev v.fsTable) = _
    rw [htabw, hw.tabs, hreadt.dev]
  · rw [htbl, hent]
    exact hzero
  · rw [htbl]
    exact hon.others g hg

end Run

/-- **Deleting a file disturbs no other.** -/
theorem erases {a : Args} {s : St} (hm : Mounted a s.dev) (hc : Consistent a s) {cls : ℤ → List ℤ}
    (hls : ListsOk a s cls) {f p : ℤ} (hlive : Live s.fsTable f) (hf0 : f ≠ 0)
    (hlnk : (s.fsTable.entrs f).lnkCnt = 1) (hp : p = 0 ∨ Live s.fsTable p) (hne : p ≠ f)
    {old : List DirEntry} (hold : ReadsAs a s p old) (honce : (old.map fidOf).count f = 1) :
    Erases a s f p := by
  have hf := fid_range (Or.inr hlive : f = 0 ∨ Live s.fsTable f)
  have hpr := fid_range hp
  obtain ⟨l, w, hop⟩ := hc.exists_lookup hp
  have hread := DirRead.of_seq hm hop (hc.seqOk hp (seqOf_of_lookup hop))
    (hc.sizes p hp l (seqOf_of_lookup hop))
  obtain rfl := hold.eq hread.read
  have hcov := ((hc.firm hm hls (Or.inr hlive)).file hf0).covers hm hf0
  obtain ⟨ent, hdrop⟩ : ∃ ent, dropEntry ((readOf (content a s.dev l)).getD []) f = some ent := by
    refine Option.ne_none_iff_exists'.mp fun hnone => ?_
    obtain ⟨e, he, hfid⟩ := List.mem_map.mp (List.one_le_count_iff.mp honce.ge)
    exact dropEntry_none.mp hnone e he hfid
  obtain ⟨t, s', h⟩ := rmFile_steps hm hc.agree hcov ⟨by omega, hf.2⟩ hlnk (hc.firm hm hls hp) hpr hne
    (hls.apart hp (Or.inr hlive) hne) hread hdrop
  obtain ⟨e, -, hx, hperm⟩ := dropEntry_perm hdrop
  have hown : SecOwned a t p := h.first.secOwned hf.1 hf.2 hne (hls.secOwned hp)
  have haddr : ∀ g, g ≠ f → secAddr t.fsTable g = secAddr s.fsTable g := by
    intro g hg
    unfold secAddr
    rw [h.first.others g hg]
  refine ⟨s', h.run, fun c i => ?_, h.second.agree, h.lnk, h.entrs, fun old' hold' => ?_,
    fun g hg hgf hgp => ?_⟩
  · rw [h.tabs, h.cleared]
    rfl
  · obtain rfl := hold'.eq hread.read
    exact ⟨ent, h.reads, perm_filter_of_cons hperm hx honce.le⟩
  · have hgr := fid_range hg
    obtain ⟨hun, hfirm⟩ := (hc.firm hm hls hg).untouched hm h.first hf hgr hgf hcov.owned
      (hls.apart hg (Or.inr hlive) hgf)
    refine hun.trans (hfirm.untouched h.first.mounted h.second hpr hgr hgp hown ?_).1
    rw [haddr g hgf, haddr p hne]
    exact hls.apart hg hp hgp

/-- File 2 is deleted from directory 1. -/
theorem erases_sevenListed : Erases sevenArgs sevenListed 2 1 := by
  have hread : ReadsAs sevenArgs sevenListed 1 listedEntries :=
    devReadDir_sevenListed
  exact erases (mounted_sevenSt _ _ _ _) consistent_sevenListed (listsOk_pairSt _)
    ((live_pairSt listedData (by decide)).mpr (Or.inr rfl)) (by decide) (by decide)
    (Or.inr ((live_pairSt listedData (by decide)).mpr (Or.inl rfl))) (by decide)
    hread (by decide)

/-! ### A directory under another file's array -/

/-- File 1 has a block of cluster 1 and one of cluster 3, the directory 2 one of cluster 2, and file 3
one of cluster 3. -/
def nestedTab (c : ℕ) (i : Fin 7) : BlkEnt :=
  if c = 0 then ⟨0, UInt32.ofNat i⟩
  else if c = 3 ∧ i = 1 then ⟨1, 1⟩
  else if c ∈ [1, 2, 3] ∧ i = 0 then ⟨UInt32.ofNat c, 0⟩
  else ⟨0, 0⟩

/-- The block of the directory holds one entry, for file 3. Read as an array of clusters, it has 64
elements: 3, and then 2 again and again. -/
def nestedData (c b : ℕ) : Buf := fun i =>
  if c = 2 ∧ b = 1 then
    if i = 0 then 64 else if i = 4 then 3 else if i % 4 = 0 ∧ i < 260 then 2 else 0
  else 0

/-- File 1 lists cluster 1, then cluster 2 twelve times, and has its array in cluster 2. -/
def nestedEntry (f : ℤ) : TableEntry :=
  if f = 1 then ⟨1, fun i => if i = 0 then 1 else if i ≤ 13 then 2 else 0⟩
  else if f = 2 then ⟨1, fun i => if i = 0 then 2 else 0⟩
  else if f = 3 then ⟨1, fun i => if i = 0 then 3 else 0⟩
  else TableEntry.zero

/-- A consistent volume on which the array of a file lies in the block of a directory. -/
def sevenNested : St := sevenSt nestedTab nestedData 0 (rootAnd nestedEntry)

/-- The clusters of the files. -/
def nestedClrs (f : ℤ) : List ℤ :=
  if f = 1 then 1 :: List.replicate 12 2 ++ 3 :: List.replicate 63 2 else [f]

theorem live_sevenNested {f : ℤ} (hf : f ≠ 0) : Live sevenNested.fsTable f ↔ f = 1 ∨ f = 2 ∨ f = 3 := by
  constructor
  · intro h
    by_contra hne
    rw [not_or, not_or] at hne
    refine h.lnk ?_
    show (rootAnd nestedEntry f).lnkCnt = 0
    rw [rootAnd, if_neg hf, nestedEntry, if_neg hne.1, if_neg hne.2.1, if_neg hne.2.2]
    rfl
  · rintro (rfl | rfl | rfl)
    · exact ⟨by decide, by decide, by decide⟩
    · exact ⟨by decide, by decide, by decide⟩
    · exact ⟨by decide, by decide, by decide⟩

theorem secBytes_sevenNested {k : ℕ} (hk : k < 1024) :
    secBytes sevenArgs sevenNested.dev 2 k = nestedData 2 1 k := by
  unfold secBytes
  rw [lblkSz_sevenArgs, Nat.div_eq_of_lt hk, Nat.mod_eq_of_lt hk, sevenNested,
    data_sevenSt _ _ _ _ (by decide) (by decide) (by decide) (by decide)]
  exact cut_of_lt _ hk

theorem stored_sevenNested {f : ℤ} (hf : f = 1 ∨ f = 2 ∨ f = 3) :
    Stored sevenArgs sevenNested.dev sevenNested.fsTable f (nestedClrs f) := by
  have hlen : ∀ {n}, n ≤ 1000 → n ≤ s1Len sevenArgs ∧ n ≤ 13 + secCap sevenArgs := by
    intro n hn
    unfold s1Len secCap
    rw [lblkSz_sevenArgs]
    omega
  rcases hf with rfl | rfl | rfl
  · have hsec : secAddr sevenNested.fsTable 1 = 2 := by decide
    refine ⟨⟨by decide, by rw [cluCnt_sevenArgs]; decide, (hlen (by decide)).1,
      fun h => absurd h (by decide), fun _ => ⟨by decide, by rw [cluCnt_sevenArgs]; decide⟩⟩,
      (hlen (by decide)).2, fun _ => ?_⟩
    rw [hsec]
    refine ⟨(leNat_congr fun i hi => secBytes_sevenNested (by omega)).trans (by decide), fun j hj => ?_⟩
    have hj64 : j < 64 := hj
    rw [get32_congr fun i hi => secBytes_sevenNested (k := 4 + 4 * j + i) (by omega)]
    have hwords : ∀ j < 64, ((get32 (nestedData 2 1) (4 + 4 * j)).toNat : ℤ) =
        ((nestedClrs 1).drop 13).getD j 0 := by decide
    exact hwords j hj64
  · exact ⟨⟨by decide, by rw [cluCnt_sevenArgs]; decide, (hlen (by decide)).1, fun _ => by decide,
      fun h => absurd h (by decide)⟩, (hlen (by decide)).2, fun h => absurd h (by decide)⟩
  · exact ⟨⟨by decide, by rw [cluCnt_sevenArgs]; decide, (hlen (by decide)).1, fun _ => by decide,
      fun h => absurd h (by decide)⟩, (hlen (by decide)).2, fun h => absurd h (by decide)⟩

theorem file_sevenNested {f : ℤ} (hf : f = 1 ∨ f = 2 ∨ f = 3) :
    ∃ t, devGetFileSeq sevenArgs sevenNested f =
        some (sortNodes (sevenNodes nestedTab f (nestedClrs f)), t) ∧
      FileSeq sevenArgs (tab sevenArgs sevenNested.dev) f
        (sortNodes (sevenNodes nestedTab f (nestedClrs f))) := by
  have hst := stored_sevenNested hf
  rcases hf with rfl | rfl | rfl
  · obtain ⟨t, hop⟩ := lookup_sevenSt (T := nestedTab) (by decide) hst (by decide)
    exact ⟨t, hop, fileSeq_sevenSt (sortNodes_perm _) hst.range (by decide) (by decide) (by decide)
      (by decide)⟩
  · obtain ⟨t, hop⟩ := lookup_sevenSt (T := nestedTab) (by decide) hst (by decide)
    exact ⟨t, hop, fileSeq_sevenSt (sortNodes_perm _) hst.range (by decide) (by decide) (by decide)
      (by decide)⟩
  · obtain ⟨t, hop⟩ := lookup_sevenSt (T := nestedTab) (by decide) hst (by decide)
    exact ⟨t, hop, fileSeq_sevenSt (sortNodes_perm _) hst.range (by decide) (by decide) (by decide)
      (by decide)⟩

theorem node_sevenNested {f : ℤ} (hf : f = 1 ∨ f = 2 ∨ f = 3) :
    (⟨f, 1, 0⟩ : BlkInfo) ∈ sortNodes (sevenNodes nestedTab f (nestedClrs f)) := by
  rcases hf with rfl | rfl | rfl <;> exact (sortNodes_perm _).mem_iff.mpr (by decide)

theorem consistent_sevenNested : Consistent sevenArgs sevenNested := by
  refine consistent_sevenSt ⟨by decide, by decide⟩ (fun i => rfl) (by decide) (by decide)
    fun f hf hf0 => ?_
  have hor := (live_sevenNested hf0).mp hf
  obtain ⟨t, hop, hfile⟩ := file_sevenNested hor
  refine ⟨_, t, hop, hfile, _, node_sevenNested hor, rfl, ?_⟩
  rw [(sortNodes_perm _).length_eq]
  rcases hor with rfl | rfl | rfl <;> decide

theorem dirRead_sevenNested : ∃ l w old, DirRead sevenArgs 2 l old sevenNested w ∧
    ReadsAs sevenArgs sevenNested 2 (old.getD []) ∧ (old.getD []).map fidOf = [3] ∧ (⟨2, 1, 0⟩ : BlkInfo) ∈ l := by
  have hm : Mounted sevenArgs sevenNested.dev := mounted_sevenSt _ _ _ _
  obtain ⟨w, hop, hfile⟩ := file_sevenNested (f := 2) (Or.inr (Or.inl rfl))
  have hnode := node_sevenNested (f := 2) (Or.inr (Or.inl rfl))
  have hlen : (sortNodes (sevenNodes nestedTab 2 (nestedClrs 2))).length = 1 :=
    (sortNodes_perm _).length_eq.trans (by decide)
  generalize sortNodes (sevenNodes nestedTab 2 (nestedClrs 2)) = l at *
  have hcont : ∀ k < 1024, content sevenArgs sevenNested.dev l k = nestedData 2 1 k :=
    fun k hk => content_sevenSt hfile.seqOk hnode rfl hk
  have hsz : leNat 4 (content sevenArgs sevenNested.dev l) = 64 :=
    (leNat_congr fun i hi => hcont i (by omega)).trans (by decide)
  have hread := DirRead.of_seq hm hop hfile.seqOk (by rw [hsz, hlen]; decide)
  have hold : readOf (content sevenArgs sevenNested.dev l) = some (entriesOf (nestedData 2 1)) := by
    unfold readOf
    rw [hsz, if_neg (by decide), entriesOf_congr hcont (by decide)]
  rw [hold] at hread
  refine ⟨_, w, _, hread, ⟨w, ?_⟩, by decide, hnode⟩
  rw [Option.getD_some, if_neg (fun h => absurd (congrArg List.length h) (by decide))]
  exact hread.read

/-- The clusters of file 1 without its array. -/
def nestedSlots : List ℤ := 1 :: List.replicate 12 2

/-- With the array empty, the block of file 1 in cluster 3 is not found. -/
theorem rebuilt_sevenNested {t s' : St} {l : List BlkInfo} (h : RmSteps sevenArgs 3 2 l [] sevenNested t s')
    (hl : SeqOk sevenArgs l) (hnode : (⟨2, 1, 0⟩ : BlkInfo) ∈ l) :
    ∃ l', Rebuilt sevenArgs s' 1 l' ∧ ∀ b ∈ l', b.cid ∈ nestedSlots := by
  have hm := h.second.mounted
  have hpos : 0 < l.length := List.length_pos_of_mem hnode
  have hempty : leNat 4 (content sevenArgs s'.dev l) = 0 := by
    refine (leNat_congr fun i hi => h.content i ?_).trans (leNat_dirBuf (by decide))
    rw [lblkSz_sevenArgs]
    omega
  have hcnt : leNat 4 (secBytes sevenArgs s'.dev 2) = 0 := by
    rw [leNat_content hl (by rw [lblkSz_sevenArgs]; decide) _ hnode rfl] at hempty
    refine Eq.trans (leNat_congr fun i hi => ?_) hempty
    show _ = cut sevenArgs.lblkSz (data sevenArgs s'.dev 2 1) i
    unfold secBytes
    rw [lblkSz_sevenArgs, cut_of_lt _ (by omega), Nat.div_eq_of_lt (by omega), Nat.mod_eq_of_lt (by omega)]
  obtain ⟨w, hload, -⟩ := devTblLoadSec_eq hm (show (0 : ℤ) ≤ 2 by decide)
    (show (2 : ℤ) < sevenArgs.cluCnt by rw [cluCnt_sevenArgs]; decide)
  rw [hcnt] at hload
  have hent : s'.fsTable.entrs 1 = rootAnd nestedEntry 1 := h.entrs 1 (by decide)
  have hsec : secAddr s'.fsTable 1 = 2 := by
    unfold secAddr
    rw [hent]
    decide
  have hfid : s'.clrsCache.fid ≠ 1 := by
    rcases h.second.clrs with heq | heq
    · rw [heq]
      rcases h.first.clrs with heq' | heq'
      · rw [heq']
        decide
      · rw [heq']
        decide
    · rw [heq]
      decide
  have htab : tab sevenArgs s'.dev 1 0 = ⟨1, 0⟩ := by
    rw [h.tabs, h.cleared, show tab sevenArgs sevenNested.dev 1 = nestedTab 1 from
      tab_sevenSt _ _ _ _ (by decide) (by decide)]
    decide
  have hmem : (⟨1, 1, 0⟩ : BlkInfo) ∈ ownNodes (tab sevenArgs s'.dev) 1 nestedSlots := by
    refine mem_ownNodes.mpr ⟨by decide, 0, rfl, ?_⟩
    rw [htab]
    decide
  obtain ⟨u, hop⟩ := lookup_of_array (s := cacheSeqRm s' 1) (f := 1) (m := 0) hm (by decide)
    hfid (mapSeq_cacheSeqRm s' 1) (show nestedSlots.length = 13 from rfl)
    (by
      show ∀ i < 13, (((s'.fsTable.entrs 1).clrs i).toNat : ℤ) = _
      rw [hent]
      decide)
    (by rw [cluCnt_sevenArgs]; decide)
    (by
      show (s'.fsTable.entrs 1).clrs 13 ≠ 0
      rw [hent]
      decide)
    (by
      show devTblLoadSec sevenArgs s'.dev (secAddr s'.fsTable 1) = _
      rw [hsec]
      exact hload)
    (by decide) (fun hz => absurd rfl hz) (List.ne_nil_of_mem hmem)
  exact ⟨_, ⟨u, hop⟩, fun b hb => (mem_ownNodes.mp ((sortNodes_perm _).mem_iff.mp hb)).1⟩

/-- **Deleting a file changes the block list of another**: when the entry of file 3 is taken out of
directory 2, the array of file 1 has no elements any more. -/
theorem not_erases_sevenNested : Mounted sevenArgs sevenNested.dev ∧ Consistent sevenArgs sevenNested ∧
    Live sevenNested.fsTable 3 ∧ (sevenNested.fsTable.entrs 3).lnkCnt = 1 ∧ Live sevenNested.fsTable 2 ∧
    (∃ old, ReadsAs sevenArgs sevenNested 2 old ∧ (old.map fidOf).count 3 = 1) ∧
    ¬ Erases sevenArgs sevenNested 3 2 := by
  have hm : Mounted sevenArgs sevenNested.dev := mounted_sevenSt _ _ _ _
  have hc := consistent_sevenNested
  have hlive := fun {f : ℤ} (hf : f = 1 ∨ f = 2 ∨ f = 3) =>
    (live_sevenNested (f := f) (by omega)).mpr hf
  obtain ⟨l, w, old, hread, hold, hfids, hnode⟩ := dirRead_sevenNested
  have honce : ((old.getD []).map fidOf).count 3 = 1 := by
    rw [hfids]
    decide
  refine ⟨hm, hc, hlive (by decide), by decide, hlive (by decide), ⟨_, hold, honce⟩, ?_⟩
  rintro ⟨s', hrun, h⟩
  -- the run of `dev_rm_file`
  have hfirm : ∀ {f : ℤ}, f = 1 ∨ f = 2 ∨ f = 3 → secAddr sevenNested.fsTable f = 0 ∨ f = 1 →
      f ≠ 1 → FirmFile sevenArgs sevenNested f (nestedClrs f) := by
    intro f hf haddr hne
    have hf0 : f ≠ 0 := by omega
    exact ⟨stored_sevenNested hf, Or.inl (haddr.resolve_right hne),
      hc.cacheOk hm hf0 (hlive hf) (stored_sevenNested hf), hc.files f (hlive hf) hf0,
      hc.rebuilt f (Or.inr (hlive hf))⟩
  have hfirm2 := hfirm (f := 2) (by decide) (by decide) (by decide)
  have hfirm3 := hfirm (f := 3) (by decide) (by decide) (by decide)
  obtain ⟨ent, hdrop⟩ : ∃ ent, dropEntry (old.getD []) 3 = some ent := by
    refine Option.ne_none_iff_exists'.mp fun hnone => ?_
    obtain ⟨e, he, hfid⟩ := List.mem_map.mp (List.one_le_count_iff.mp honce.ge)
    exact dropEntry_none.mp hnone e he hfid
  obtain ⟨t, s'', hst⟩ := rmFile_steps hm hc.agree (hfirm3.covers hm (by decide)) (by decide) (by decide)
    ⟨fun hz => absurd hz (by decide), fun _ => hfirm2⟩ (by decide) (by decide)
    (fun hz => absurd (by decide) hz) hread hdrop
  obtain rfl : s'' = s' := (Prod.mk.inj (Option.some.inj (hst.run.symm.trans hrun))).2
  obtain rfl : ent = [] := by
    have hlen := dropEntry_length hdrop
    have hone := congrArg List.length hfids
    rw [List.length_map, List.length_singleton] at hone
    exact List.length_eq_zero_iff.mp (by omega)
  -- file 1 had a block in cluster 3
  obtain ⟨u, hop, -⟩ := file_sevenNested (f := 1) (Or.inl rfl)
  have hnone : sevenNested.mapSeq 1 = none := rfl
  have hreb := (h.others 1 (Or.inr (hlive (Or.inl rfl))) (by decide) (by decide)).rebuilt _
    ((seqOf_of_lookup hop).resolve_left (by rw [hnone]; intro heq; cases heq))
  obtain ⟨l', hreb', hcids⟩ := rebuilt_sevenNested hst hread.ok hnode
  obtain rfl := hreb.unique hreb'
  have hin : (⟨3, 2, 1⟩ : BlkInfo) ∈ sortNodes (sevenNodes nestedTab 1 (nestedClrs 1)) :=
    (sortNodes_perm _).mem_iff.mpr (by decide)
  exact absurd (hcids _ hin) (by decide)

end Fcfs.Vol
