import Fcfs.Vol.ReadBack

/-! # Files do not see each other's writes

A write to one file leaves every other file, the root directory among them, as it was: its table
entry, its block list, cached or rebuilt, its contents, and so whatever is read from it
(`Untouched`). Only its own blocks, free blocks, cluster tables and its address cluster are written
(`isolated`). For that the cluster lists of all files have to be in order (`ListsOk`). -/

namespace Fcfs.Vol

open Lib.Bytes

/-- **The cluster lists of all files are in order**: they can be read back, their address clusters
are claimed, and no two share one. -/
structure ListsOk (a : Args) (s : St) (cls : ℤ → List ℤ) : Prop where
  root : RootEntry s.fsTable
  stored : ∀ g, Live s.fsTable g → g ≠ 0 → Stored a s.dev s.fsTable g (cls g)
  owned : ∀ g, Live s.fsTable g → g ≠ 0 → SecOwned a s g
  distinct : ∀ g g', Live s.fsTable g → Live s.fsTable g' → g ≠ 0 → g' ≠ 0 → g ≠ g' →
    secAddr s.fsTable g ≠ 0 → secAddr s.fsTable g ≠ secAddr s.fsTable g'

theorem ListsOk.listOk {a : Args} {s : St} {cls : ℤ → List ℤ} (h : ListsOk a s cls) {f : ℤ}
    (hlive : Live s.fsTable f) (hf : f ≠ 0) : ListOk a s f (cls f) := by
  have h0 := hlive.nonneg
  exact ⟨h.stored f hlive hf, (h.owned f hlive hf).apart (u32_fid (by omega) hlive.lt).2⟩

/-- The address cluster of a file is claimed; the root has none. -/
theorem ListsOk.secOwned {a : Args} {s : St} {cls : ℤ → List ℤ} (h : ListsOk a s cls) {f : ℤ}
    (hf : f = 0 ∨ Live s.fsTable f) : SecOwned a s f := by
  by_cases hf0 : f = 0
  · subst hf0
    exact Or.inl h.root.secAddr_eq
  · exact h.owned f (hf.resolve_left hf0) hf0

theorem ListsOk.apart {a : Args} {s : St} {cls : ℤ → List ℤ} (h : ListsOk a s cls) {f g : ℤ}
    (hg : g = 0 ∨ Live s.fsTable g) (hf : f = 0 ∨ Live s.fsTable f) (hne : g ≠ f)
    (hsec : secAddr s.fsTable g ≠ 0) : secAddr s.fsTable g ≠ secAddr s.fsTable f := by
  have hg0 : g ≠ 0 := fun hz => hsec (hz ▸ h.root.secAddr_eq)
  by_cases hf0 : f = 0
  · subst hf0
    rw [h.root.secAddr_eq]
    exact hsec
  · exact h.distinct g f (hg.resolve_left hg0) (hf.resolve_left hf0) hg0 hf0 hne hsec

/-- **The file `g` is as it was**, and none of its blocks has been written. -/
structure Untouched (a : Args) (g : ℤ) (s s' : St) : Prop where
  entry : s'.fsTable.entrs g = s.fsTable.entrs g
  cached : s'.mapSeq g = s.mapSeq g
  rebuilt : ∀ l, Rebuilt a s g l → Rebuilt a s' g l
  content : ∀ l, SeqOf a s g l → content a s'.dev l = content a s.dev l
  size : (devFileSize a s' g).map Prod.fst = (devFileSize a s g).map Prod.fst
  reads : ∀ buf n off, (opsRead a s' buf n off g).map (fun r => (r.1, r.2.1)) =
    (opsRead a s buf n off g).map fun r => (r.1, r.2.1)
  log : ∃ new, devLog s' = new ++ devLog s ∧
    ∀ l, SeqOf a s g l → ∀ e ∈ new, e ∉ l.map blkOf

theorem Untouched.seqOf {a : Args} {g : ℤ} {s t : St} (h : Untouched a g s t) {l : List BlkInfo}
    (hl : SeqOf a s g l) : SeqOf a t g l :=
  hl.imp (fun heq => h.cached.trans heq) (h.rebuilt l)

theorem Untouched.trans {a : Args} {g : ℤ} {s t u : St} (h : Untouched a g s t) (h' : Untouched a g t u) :
    Untouched a g s u := by
  obtain ⟨new, hlog, hnew⟩ := h.log
  obtain ⟨new', hlog', hnew'⟩ := h'.log
  refine ⟨h'.entry.trans h.entry, h'.cached.trans h.cached, fun l hl => h'.rebuilt l (h.rebuilt l hl),
    fun l hl => (h'.content l (h.seqOf hl)).trans (h.content l hl), h'.size.trans h.size,
    fun buf n off => (h'.reads buf n off).trans (h.reads buf n off), new' ++ new,
    by rw [hlog', hlog, List.append_assoc], fun l hl e he => ?_⟩
  rcases List.mem_append.mp he with he | he
  · exact hnew' l (h.seqOf hl) e he
  · exact hnew l hl e he

/-! ### Reads that give the same -/

section Reads
variable {a : Args} {g : ℤ} {l : List BlkInfo}

theorem devReadById_congr {d d' : Dev} (h : SeqOk a l) (hm : Mounted a d) (hm' : Mounted a d')
    (hd : ∀ b ∈ l, data a d' b.cid b.bid = data a d b.cid b.bid) (id : ℤ) :
    devReadById a d' id l l.length = devReadById a d id l l.length := by
  by_cases hid : id < 0 ∨ (l.length : ℤ) ≤ id
  · rw [devReadById_miss h d hid, devReadById_miss h d' hid]
  · rw [not_or, not_lt, not_le] at hid
    obtain ⟨k, rfl⟩ := Int.eq_ofNat_of_zero_le hid.1
    have hk : k < l.length := Int.ofNat_lt.mp hid.2
    rw [devReadById_eq h hm hk, devReadById_eq h hm' hk, page_congr hd]

theorem readLoop_congr {d d' : Dev} {seqSz blkNum : ℤ}
    (hread : ∀ id, devReadById a d' id l seqSz = devReadById a d id l seqSz) (n : ℕ) :
    ∀ (i : ℕ) (tmp : Buf), readLoop a d' l seqSz blkNum n i tmp =
      readLoop a d l seqSz blkNum n i tmp := by
  induction n with
  | zero => intro i tmp; rfl
  | succ n ih =>
    intro i tmp
    simp only [readLoop, hread, ih]

/-- The result of `dev_file_size` from the result of the block read. -/
def sizeIn : Option Buf → ℤ
  | none => -1
  | some buf => cint (leNat 4 buf)

theorem devFileSize_cached {t : St} (ht : t.mapSeq g = some l) :
    devFileSize a t g = (devReadById a t.dev 0 l l.length).map fun o => (sizeIn o, t) := by
  unfold devFileSize
  rw [devGetFileSeq_cached ht, Option.bind_eq_bind, Option.bind_some]
  dsimp only
  cases devReadById a t.dev 0 l l.length with
  | none => rfl
  | some o =>
    cases o with
    | none => rfl
    | some b => rfl

/-- What `ops_read` returns once it has the size of the file and its list. -/
def readRest (a : Args) (d : Dev) (l : List BlkInfo) (buf : Buf) (size offset : ℕ) (fsize : ℤ) :
    Option (ℤ × Buf) :=
  let total := (offset + size) % 2 ^ 64
  let short := toSizeT fsize < total
  let size := if short then (size + (toSizeT fsize + (2 ^ 64 - total))) % 2 ^ 64 else size
  if short ∧ size = 0 then some (0, buf)
  else do
    let offset := offset + 4
    let blkNum : ℤ := offset / a.lblkSz
    let blkOff := offset % a.lblkSz
    let szCnt := toBlkCnt (cint (blkOff + size : ℕ)) a.lblkSz
    if szCnt < 0 then none
    else do
      match ← readLoop a d l l.length blkNum szCnt.toNat 0 a.junk with
      | none => some (-1, buf)
      | some tmp =>
        if a.lblkSz * szCnt < (blkOff + size : ℕ) then none
        else some (cint size, memcpy buf 0 (shift tmp blkOff) size)

theorem opsRead_cached {t : St} (ht : t.mapSeq g = some l) (buf : Buf) (n off : ℕ) :
    opsRead a t buf n off g = (devReadById a t.dev 0 l l.length).bind fun o =>
      (readRest a t.dev l buf n off (sizeIn o)).map fun r => (r.1, r.2, t) := by
  unfold opsRead
  rw [devFileSize_cached ht, Option.bind_eq_bind, Option.bind_map]
  refine Option.bind_congr fun o _ => ?_
  unfold readRest
  simp only [Function.comp_apply, devGetFileSeq_cached ht]
  generalize sizeIn o = z
  generalize (if toSizeT z < (off + n) % 2 ^ 64 then
    (n + (toSizeT z + (2 ^ 64 - (off + n) % 2 ^ 64))) % 2 ^ 64 else n) = m
  by_cases hend : toSizeT z < (off + n) % 2 ^ 64 ∧ m = 0
  · rw [if_pos hend, if_pos hend, Option.map_some]
  · rw [if_neg hend, if_neg hend]
    generalize toBlkCnt (cint ((off + 4) % a.lblkSz + m : ℕ)) a.lblkSz = k
    by_cases hk : k < 0
    · rw [if_pos hk, if_pos hk, Option.map_none]
    · rw [if_neg hk, if_neg hk, Option.bind_eq_bind, Option.bind_some]
      simp only [Option.bind_eq_bind, Option.map_bind]
      by_cases hfit : (a.lblkSz : ℤ) * k < ((off + 4) % a.lblkSz + m : ℕ)
      · simp only [if_pos hfit]
        exact Option.bind_congr fun r _ => by cases r <;> simp only [Function.comp_apply, Option.map]
      · simp only [if_neg hfit]
        exact Option.bind_congr fun r _ => by cases r <;> simp only [Function.comp_apply, Option.map]

/-- A lookup leaves the list in the cache; size and reads do not depend on whether it was there. -/
theorem lookup_cached {s t : St} (h : devGetFileSeq a s g = some (l, t)) :
    t.mapSeq g = some l ∧ t.dev = s.dev ∧ devFileSize a s g = devFileSize a t g ∧
      ∀ buf n off, opsRead a s buf n off g = opsRead a t buf n off g := by
  have ht : t.mapSeq g = some l ∧ t.dev = s.dev := by
    obtain ⟨c, rfl, -⟩ := devGetFileSeq_frame h
    exact ⟨Function.update_self _ _ _, rfl⟩
  have hsz : devFileSize a s g = devFileSize a t g := by
    unfold devFileSize
    rw [h, devGetFileSeq_cached ht.1]
  refine ⟨ht.1, ht.2, hsz, fun buf n off => ?_⟩
  unfold opsRead
  rw [hsz]

/-- **Size and reads through the same list** of blocks that hold the same. -/
theorem reads_congr {s s' t t' : St} (h : devGetFileSeq a s g = some (l, t))
    (h' : devGetFileSeq a s' g = some (l, t')) (hl : SeqOk a l) (hm : Mounted a s.dev)
    (hm' : Mounted a s'.dev)
    (hd : ∀ b ∈ l, data a s'.dev b.cid b.bid = data a s.dev b.cid b.bid) :
    (devFileSize a s' g).map Prod.fst = (devFileSize a s g).map Prod.fst ∧
      ∀ buf n off, (opsRead a s' buf n off g).map (fun r => (r.1, r.2.1)) =
        (opsRead a s buf n off g).map fun r => (r.1, r.2.1) := by
  obtain ⟨ht, hdev, hsz, hrd⟩ := lookup_cached h
  obtain ⟨ht', hdev', hsz', hrd'⟩ := lookup_cached h'
  have hread : ∀ id, devReadById a t'.dev id l l.length = devReadById a t.dev id l l.length := by
    rw [hdev, hdev']
    exact devReadById_congr hl hm hm' hd
  constructor
  · rw [hsz, hsz', devFileSize_cached ht, devFileSize_cached ht', hread]
    simp only [Option.map_map, Function.comp_def]
  · intro buf n off
    rw [hrd, hrd', opsRead_cached ht, opsRead_cached ht', hread]
    unfold readRest
    simp only [readLoop_congr hread, Option.map_bind, Option.map_map, Function.comp_def]

end Reads

/-! ### The other files -/

section Others
variable {a : Args} {f g : ℤ} {s s' : St} {cls : ℤ → List ℤ}

theorem onFile_lookup (hm : Mounted a s.dev) (hag : Agree a s.dev s.fsBitmap) {l : List BlkInfo}
    (hseq : devGetFileSeq a s f = some (l, s')) : OnFile a f s s' := by
  obtain ⟨c, rfl, hcase⟩ := devGetFileSeq_frame hseq
  refine OnFile.memory hm hag rfl rfl rfl rfl ?_ fun g hg => Function.update_of_ne hg _ _
  rcases hcase with ⟨-, heq⟩ | ⟨-, n, hcnt⟩
  · exact Or.inl heq
  · obtain ⟨c', heq, hfid⟩ := devTblClrsCnt_frame hcnt
    exact Or.inr ((congrArg (fun u : St => u.clrsCache.fid) heq).trans hfid)

theorem avail_lookup {l : List BlkInfo} {c : ℤ} {b : ℕ} (hseq : devGetFileSeq a s f = some (l, s'))
    (h : Avail a s f c b) : Avail a s' f c b := by
  obtain ⟨c, rfl, -⟩ := devGetFileSeq_frame hseq
  exact ⟨h.clu, h.blk, h.own⟩

theorem lookup_of_rebuilt {l : List BlkInfo} {t : St} (hcached : s'.mapSeq g = s.mapSeq g)
    (hreb : ∀ l, Rebuilt a s g l → Rebuilt a s' g l) (hseq : devGetFileSeq a s g = some (l, t)) :
    ∃ t', devGetFileSeq a s' g = some (l, t') := by
  cases hmap : s.mapSeq g with
  | some l' =>
    rw [devGetFileSeq_cached hmap] at hseq
    obtain ⟨rfl, -⟩ := Prod.mk.inj (Option.some.inj hseq)
    exact ⟨s', devGetFileSeq_cached (hcached.trans hmap)⟩
  | none =>
    obtain ⟨t', ht'⟩ := hreb l ⟨t, by rw [cacheSeqRm_of_none hmap]; exact hseq⟩
    rw [cacheSeqRm_of_none (hcached.trans hmap)] at ht'
    exact ⟨t', ht'⟩

theorem log_not_mem (hfg : Foreign f g) (hsec : SecOwned a s f)
    {new : List (ℤ × ℕ)} (hnew : ∀ e ∈ new, 1 ≤ e.1 ∧ e.2 = 0 ∨ Avail a s f e.1 e.2)
    {l : List BlkInfo} (hl : FileSeq a (tab a s.dev) g l) : ∀ e ∈ new, e ∉ l.map blkOf := by
  intro e he hel
  have hown := (hl.mem e).mp hel
  obtain ⟨b, hb, rfl⟩ := List.mem_map.mp hel
  rcases hnew _ he with ⟨-, h0⟩ | hav
  · obtain ⟨-, -, i, hi, -⟩ := hown
    omega
  · exact hav.not_owns hfg hsec (hl.pos b hb) hown

/-! ### What is looked up -/

theorem Rebuilt.unique {l l' : List BlkInfo} (h : Rebuilt a s g l) (h' : Rebuilt a s g l') : l = l' := by
  obtain ⟨t, ht⟩ := h
  obtain ⟨t', ht'⟩ := h'
  exact (Prod.mk.inj (Option.some.inj (ht.symm.trans ht'))).1

/-- What is rebuilt is what was, if everything that was is rebuilt. -/
theorem seqOf_of_rebuilt (hcached : s'.mapSeq g = s.mapSeq g) (hex : ∃ l, Rebuilt a s g l)
    (hreb : ∀ l, Rebuilt a s g l → Rebuilt a s' g l) {l : List BlkInfo} (h : SeqOf a s' g l) : SeqOf a s g l := by
  rcases h with h | h
  · exact Or.inl (hcached.symm.trans h)
  · obtain ⟨l₀, h₀⟩ := hex
    rw [h.unique (hreb l₀ h₀)]
    exact Or.inr h₀

/-- **A file with a firm list**: its cluster list can be read back, its address cluster is claimed, the
caches hold nothing else of it, and its block list is found. -/
structure FirmFile (a : Args) (s : St) (g : ℤ) (cl : List ℤ) : Prop where
  stored : Stored a s.dev s.fsTable g cl
  owned : SecOwned a s g
  cache : CacheOk s.clrsCache g cl
  lists : ∀ l, SeqOf a s g l → FileSeq a (tab a s.dev) g l
  rebuilt : ∃ l, Rebuilt a s g l

/-- The root with a firm list. -/
structure FirmRoot (a : Args) (s : St) : Prop where
  pos : 0 < a.cluCnt
  entry : RootEntry s.fsTable
  cache : CacheOk s.clrsCache 0 [0]
  rootTab : ∀ i, tab a s.dev 0 i = ⟨0, UInt32.ofNat i⟩
  lists : ∀ l, SeqOf a s 0 l → l.Perm rootNodes
  rebuilt : ∃ l, Rebuilt a s 0 l

/-- Either of them. -/
structure Firm (a : Args) (s : St) (g : ℤ) (cl : List ℤ) : Prop where
  root : g = 0 → FirmRoot a s
  file : g ≠ 0 → FirmFile a s g cl

/-- **On a consistent volume with its cluster lists in order** the root and the files are firm. -/
theorem Consistent.firm (hm : Mounted a s.dev) (hc : Consistent a s) (hls : ListsOk a s cls)
    (hg : g = 0 ∨ Live s.fsTable g) : Firm a s g (cls g) := by
  refine ⟨fun hg0 => ?_, fun hg0 => ?_⟩
  · subst hg0
    exact ⟨hc.cluCnt_pos, hls.root, hc.cache.root hls.root, hc.rootTab, hc.rootSeq, hc.rebuilt 0 hg⟩
  · have hlive := hg.resolve_left hg0
    have hst := hls.stored g hlive hg0
    exact ⟨hst, hls.owned g hlive hg0, hc.cacheOk hm hg0 hlive hst, hc.files g hlive hg0, hc.rebuilt g hg⟩

theorem Firm.avail {cl : List ℤ} (hg : Firm a s g cl) {l : List BlkInfo} (hl : SeqOf a s g l) :
    ∀ b ∈ l, Avail a s g b.cid b.bid := by
  by_cases hg0 : g = 0
  · subst hg0
    intro b hb
    obtain ⟨i, -, rfl⟩ := List.mem_map.mp (((hg.root rfl).lists l hl).mem_iff.mp hb)
    refine ⟨Or.inr ⟨rfl, rfl⟩, ⟨by simp only; omega, by simp only; omega⟩, Or.inl ⟨i, rfl, Or.inl ?_⟩⟩
    rw [(hg.root rfl).rootTab]
  · exact ((hg.file hg0).lists l hl).avail

theorem FileSeq.of_onFile {l : List BlkInfo} (h : OnFile a f s s') (hfg : Foreign f g)
    (hl : FileSeq a (tab a s.dev) g l) : FileSeq a (tab a s'.dev) g l :=
  ⟨fun p => (hl.mem p).trans (h.owns hfg p).symm, hl.pos, hl.nodup, hl.nums, hl.ne⟩

/-- **Work on one file leaves another alone.** -/
theorem FirmFile.untouched {cl : List ℤ} (hg : FirmFile a s g cl) (hm : Mounted a s.dev)
    (h : OnFile a f s s') (hf : 0 ≤ f ∧ f < tableLen) (hgr : 0 < g ∧ g < tableLen) (hne : g ≠ f)
    (hsec : SecOwned a s f) (hdis : secAddr s.fsTable g ≠ 0 → secAddr s.fsTable g ≠ secAddr s.fsTable f) :
    Untouched a g s s' ∧ FirmFile a s' g cl := by
  have hfg : Foreign f g := foreign_of_lt hf.1 hf.2 hgr.1 hgr.2 hne
  have hg0 : g ≠ 0 := by omega
  have haddr : 13 < cl.length → secAddr s.fsTable g ≠ 0 := fun hlong => by
    have := (hg.stored.long hlong).pos
    omega
  have hst : Stored a s'.dev s'.fsTable g cl :=
    h.stored hf.1 hf.2 hne hg.stored (fun hlong => hg.owned.resolve_left (haddr hlong))
      (fun hlong => hdis (haddr hlong)) hm.geo.le_lblkSz
  have hcached := h.seqs g hne
  have hreb : ∀ l, Rebuilt a s g l → Rebuilt a s' g l := by
    rintro l ⟨t, ht⟩
    obtain ⟨c, -, hold⟩ := devGetFileSeq_rebuild (s := cacheSeqRm s g) hm hg0 hg.stored hg.cache
      (mapSeq_cacheSeqRm s g)
    obtain ⟨c', -, hnew⟩ := devGetFileSeq_rebuild (s := cacheSeqRm s' g) h.mounted hg0 hst
      (h.cacheOk hne hg.cache) (mapSeq_cacheSeqRm s' g)
    have hdev : (cacheSeqRm s g).dev = s.dev := rfl
    have hdev' : (cacheSeqRm s' g).dev = s'.dev := rfl
    rw [hdev', h.ownNodes hfg, hdev.symm] at hnew
    rw [ht] at hold
    by_cases hnil : ownNodes (tab a (cacheSeqRm s g).dev) g cl = []
    · rw [if_pos hnil] at hold
      cases hold
    · rw [if_neg hnil] at hold hnew
      obtain ⟨rfl, -⟩ := Prod.mk.inj (Option.some.inj hold)
      exact ⟨_, hnew⟩
  obtain ⟨l, t, hseq⟩ := exists_lookup hg.rebuilt
  have hl := hg.lists l (seqOf_of_lookup hseq)
  obtain ⟨t', hseq'⟩ := lookup_of_rebuilt hcached hreb hseq
  obtain ⟨hsize, hreads⟩ := reads_congr hseq hseq' hl.seqOk hm h.mounted
    fun b hb => h.data_owned hfg hsec (hl.owns hb) (hl.pos b hb)
  obtain ⟨new, hlog, hnew⟩ := h.log
  refine ⟨⟨h.others g hne, hcached, hreb, fun l hl => h.content hfg hsec (hg.lists l hl), hsize, hreads,
    new, hlog, fun l hl => log_not_mem hfg hsec hnew (hg.lists l hl)⟩, hst,
    h.secOwned hf.1 hf.2 hne hg.owned, h.cacheOk hne hg.cache, fun l hl => ?_, ?_⟩
  · exact (hg.lists l (seqOf_of_rebuilt hcached hg.rebuilt hreb hl)).of_onFile h hfg
  · obtain ⟨l₀, h₀⟩ := hg.rebuilt
    exact ⟨l₀, hreb l₀ h₀⟩

/-- **Work on a file leaves the root alone.** -/
theorem FirmRoot.untouched (hr : FirmRoot a s) (hm : Mounted a s.dev) (h : OnFile a f s s') (hf0 : f ≠ 0) :
    Untouched a 0 s s' ∧ FirmRoot a s' := by
  have hne : (0 : ℤ) ≠ f := Ne.symm hf0
  have hent := h.others 0 hne
  have hcached := h.seqs 0 hne
  have hroot' : RootEntry s'.fsTable :=
    ⟨by rw [hent]; exact hr.entry.slot, by rw [hent]; exact hr.entry.sec⟩
  have htab : ∀ i, tab a s'.dev 0 i = ⟨0, UInt32.ofNat i⟩ := fun i =>
    (h.tab_root i).trans (hr.rootTab i)
  have hdata : ∀ l : List BlkInfo, l.Perm rootNodes →
      ∀ b ∈ l, data a s'.dev b.cid b.bid = data a s.dev b.cid b.bid := by
    intro l hl b hb
    obtain ⟨i, -, rfl⟩ := List.mem_map.mp (hl.mem_iff.mp hb)
    exact h.data_root hf0 _
  have hnodes : nodesOf (tab a s.dev 0) 0 0 = rootNodes := nodesOf_root hr.rootTab
  have hnodes' : nodesOf (tab a s'.dev 0) 0 0 = rootNodes := nodesOf_root htab
  have hreb : ∀ l, Rebuilt a s 0 l → Rebuilt a s' 0 l := by
    rintro l ⟨t, ht⟩
    obtain ⟨c, hold, -⟩ := devGetFileSeq_root (s := cacheSeqRm s 0) hr.entry hm hr.pos hr.cache
      (mapSeq_cacheSeqRm s 0) (by show nodesOf (tab a s.dev 0) 0 0 ≠ []; rw [hnodes]; decide)
    obtain ⟨c', hnew, -⟩ := devGetFileSeq_root (s := cacheSeqRm s' 0) hroot' h.mounted hr.pos
      (h.cacheOk hne hr.cache) (mapSeq_cacheSeqRm s' 0)
      (by show nodesOf (tab a s'.dev 0) 0 0 ≠ []; rw [hnodes']; decide)
    have hdev : (cacheSeqRm s 0).dev = s.dev := rfl
    have hdev' : (cacheSeqRm s' 0).dev = s'.dev := rfl
    rw [hdev, hnodes, ht] at hold
    rw [hdev', hnodes'] at hnew
    obtain ⟨rfl, -⟩ := Prod.mk.inj (Option.some.inj hold)
    exact ⟨_, hnew⟩
  obtain ⟨l, t, hseq⟩ := exists_lookup hr.rebuilt
  have hl := hr.lists l (seqOf_of_lookup hseq)
  obtain ⟨t', hseq'⟩ := lookup_of_rebuilt hcached hreb hseq
  obtain ⟨hsize, hreads⟩ := reads_congr hseq hseq' (seqOk_root hr.pos hl) hm h.mounted (hdata l hl)
  obtain ⟨new, hlog, hnew⟩ := h.log
  refine ⟨⟨hent, hcached, hreb, fun l hl => content_congr (hdata l (hr.lists l hl)), hsize, hreads,
    new, hlog, fun l hl e he hel => ?_⟩, hr.pos, hroot', h.cacheOk hne hr.cache, htab, fun l hl => ?_, ?_⟩
  · obtain ⟨b, hb, rfl⟩ := List.mem_map.mp hel
    obtain ⟨i, -, rfl⟩ := List.mem_map.mp ((hr.lists l hl).mem_iff.mp hb)
    rcases hnew _ he with ⟨h1, -⟩ | hav
    · exact absurd h1 (by simp [blkOf])
    · rcases hav.clu with h1 | ⟨hz, -⟩
      · exact absurd h1 (by simp [blkOf])
      · exact hf0 hz
  · exact hr.lists l (seqOf_of_rebuilt hcached hr.rebuilt hreb hl)
  · obtain ⟨l₀, h₀⟩ := hr.rebuilt
    exact ⟨l₀, hreb l₀ h₀⟩

/-- **Work on the root or a file** leaves the others as they were, and firm. -/
theorem Firm.untouched {cl : List ℤ} (hg : Firm a s g cl) (hm : Mounted a s.dev) (h : OnFile a f s s')
    (hf : 0 ≤ f ∧ f < tableLen) (hgr : 0 ≤ g ∧ g < tableLen) (hne : g ≠ f) (hsec : SecOwned a s f)
    (hdis : secAddr s.fsTable g ≠ 0 → secAddr s.fsTable g ≠ secAddr s.fsTable f) :
    Untouched a g s s' ∧ Firm a s' g cl := by
  by_cases hg0 : g = 0
  · subst hg0
    obtain ⟨hun, hr⟩ := (hg.root rfl).untouched hm h (Ne.symm hne)
    exact ⟨hun, fun _ => hr, fun hn => absurd rfl hn⟩
  · obtain ⟨hun, hr⟩ := (hg.file hg0).untouched hm h hf ⟨by omega, hgr.2⟩ hne hsec hdis
    exact ⟨hun, fun hz => absurd hz hg0, fun _ => hr⟩

/-- Work on one file of a consistent volume with its cluster lists in order leaves the others as they were. -/
theorem Consistent.untouched (hm : Mounted a s.dev) (hc : Consistent a s) (hls : ListsOk a s cls)
    (h : OnFile a f s s') (hf : f = 0 ∨ Live s.fsTable f) (hg : g = 0 ∨ Live s.fsTable g) (hne : g ≠ f) :
    Untouched a g s s' :=
  ((hc.firm hm hls hg).untouched hm h (fid_range hf) (fid_range hg) hne (hls.secOwned hf)
    (hls.apart hg hf hne)).1

end Others

/-! ### The claim -/

/-- **A write to `f` stays with `f`**: every other file and the root are as before, and if it needs
no new block, so are the bitmap, the file table and the cluster tables. -/
def Isolated (a : Args) (s : St) (path : Path) (data : Buf) (size offset : ℕ) (f : ℤ) : Prop :=
  ∃ r s', opsWrite a s path data size offset f = some (r, s') ∧
    (∀ g, g = 0 ∨ Live s.fsTable g → g ≠ f → Untouched a g s s') ∧
    ((∀ l t, devGetFileSeq a s f = some (l, t) → writeNeed a size offset ≤ l.length) →
      s'.fsBitmap = s.fsBitmap ∧ s'.fsTable = s.fsTable ∧ tab a s'.dev = tab a s.dev)

/-- **Files do not see each other's writes.** -/
theorem isolated {a : Args} {s : St} (hm : Mounted a s.dev) (hsm : a.cluCnt ≤ 65535)
    (hc : Consistent a s) {cls : ℤ → List ℤ} (hls : ListsOk a s cls) {f : ℤ}
    (hlive : Live s.fsTable f) (hf : f ≠ 0) (path : Path) (data : Buf) {size offset : ℕ}
    (hlen : offset + 4 + size < 2 ^ 31) (hspace : WriteSpace a s f (cls f) size offset) :
    Isolated a s path data size offset f := by
  have hlive0 := hlive.nonneg
  have hlist := hls.listOk hlive hf
  obtain ⟨l, t, hseq⟩ := hc.exists_lookup (Or.inr hlive)
  obtain ⟨c, ht, hg⟩ := hc.growable hm hlive hf hlist hseq
  have hdev : t.dev = s.dev := by rw [ht]; rfl
  have hmt : Mounted a t.dev := by rw [hdev]; exact hm
  have hagt : Agree a t.dev t.fsBitmap := by rw [ht]; exact hc.agree
  have hsz : 4 + fileSz a t.dev l ≤ l.length * a.lblkSz := by
    rw [hdev]
    exact hc.sizes f (Or.inr hlive) l (seqOf_of_lookup hseq)
  have h31 := hg.list.bytes_lt hmt
  obtain ⟨l', u, s', hop, hgr, hw, -, -, hstay⟩ := opsWrite_eq hsm (by omega) hlive.lt hmt hagt hseq hg
    path data hlen (by omega) (by rw [hdev]; exact hspace l t hseq)
  -- the lookup, the growth and the write, one after the other
  have hon : OnFile a f s s' :=
    (onFile_lookup hm hc.agree hseq).trans (hgr.onFile.trans (hw.onFile hgr.onFile.agree hgr.list.avail))
  refine ⟨size, s', hop, fun g hglive hne => ?_, fun hno => ?_⟩
  · exact hc.untouched hm hls hon (Or.inr hlive) hglive hne
  · have hmem := hw.mem
    have hut := hstay (hno l t hseq)
    refine ⟨?_, ?_, ?_⟩
    · rw [hmem, hut, ht]
      rfl
    · rw [hmem, hut, ht]
      rfl
    · rw [hw.tabs, hut, hdev]

theorem listsOk_pairSt (D : ℕ → ℕ → Buf) : ListsOk sevenArgs (pairSt D) fun _ => [1] := by
  have hsec : ∀ g, Live (pairSt D).fsTable g → g ≠ 0 → secAddr (pairSt D).fsTable g = 0 := fun g hg hg0 =>
    (stored_pairSt D ((live_pairSt D hg0).mp hg)).short (by decide)
  refine ⟨⟨?_, ?_⟩, fun g hg hg0 => stored_pairSt D ((live_pairSt D hg0).mp hg),
    fun g hg hg0 => Or.inl (hsec g hg hg0), fun g g' hg _ hg0 _ _ hne => absurd (hsec g hg hg0) hne⟩
  · exact show (rootAnd pairEntry 0).clrs 0 = 0 by decide
  · exact show (rootAnd pairEntry 0).clrs 13 = 0 by decide

/-- A write to one of two files that share a cluster. -/
theorem isolated_sevenPair :
    Isolated sevenArgs sevenPair [] (fun i => UInt8.ofNat (i + 1)) 4 1020 1 :=
  isolated (mounted_sevenSt _ _ _ _) (by rw [cluCnt_sevenArgs]; decide) consistent_sevenPair
    (listsOk_pairSt _) ((live_sevenPair (by decide)).mpr (Or.inl rfl)) (by decide) [] _ (by decide)
    writeSpace_sevenPair

/-! ### A file's blocks under another file's array -/

/-- Cluster 1 has the blocks of file 1, cluster 2 those of file 2. -/
def sharedTab (c : ℕ) (i : Fin 7) : BlkEnt :=
  if c = 0 then ⟨0, UInt32.ofNat i⟩
  else if c = 1 then ⟨1, UInt32.ofNat i⟩
  else if c = 2 then ⟨2, UInt32.ofNat i⟩
  else ⟨0, 0⟩

/-- Block 0 of file 2 holds the size 1 and the byte 2; read as an array of clusters, it has one
element, 2. -/
def sharedData (c b : ℕ) : Buf := fun i =>
  if c = 2 ∧ b = 1 then if i = 0 then 1 else if i = 4 then 2 else 0 else 0

/-- File 1 lists cluster 1, then cluster 2 twelve times, and has its array in cluster 2. -/
def sharedEntry (f : ℤ) : TableEntry :=
  if f = 1 then ⟨1, fun i => if i = 0 then 1 else if i ≤ 13 then 2 else 0⟩
  else if f = 2 then ⟨1, fun i => if i = 0 then 2 else 0⟩
  else TableEntry.zero

/-- A consistent volume on which the array of one file lies in the blocks of another. -/
def sevenShared : St := sevenSt sharedTab sharedData 96 (rootAnd sharedEntry)

/-- The clusters of file 1. -/
def sharedClrs : List ℤ := 1 :: List.replicate 13 2

theorem live_sevenShared {f : ℤ} (hf : f ≠ 0) : Live sevenShared.fsTable f ↔ f = 1 ∨ f = 2 := by
  constructor
  · intro h
    by_contra hne
    rw [not_or] at hne
    refine h.lnk ?_
    show (rootAnd sharedEntry f).lnkCnt = 0
    rw [rootAnd, if_neg hf, sharedEntry, if_neg hne.1, if_neg hne.2]
    rfl
  · rintro (rfl | rfl)
    · exact ⟨by decide, by decide, by decide⟩
    · exact ⟨by decide, by decide, by decide⟩

theorem secBytes_sevenShared {k : ℕ} (hk : k < 1024) :
    secBytes sevenArgs sevenShared.dev 2 k = sharedData 2 1 k := by
  unfold secBytes
  rw [lblkSz_sevenArgs, Nat.div_eq_of_lt hk, Nat.mod_eq_of_lt hk, sevenShared,
    data_sevenSt _ _ _ _ (by decide) (by decide) (by decide) (by decide)]
  exact cut_of_lt _ hk

theorem stored_sevenShared :
    Stored sevenArgs sevenShared.dev sevenShared.fsTable 1 sharedClrs ∧
      Stored sevenArgs sevenShared.dev sevenShared.fsTable 2 [2] := by
  have hlen : ∀ {n}, n ≤ 1000 → n ≤ s1Len sevenArgs ∧ n ≤ 13 + secCap sevenArgs := by
    intro n hn
    unfold s1Len secCap
    rw [lblkSz_sevenArgs]
    omega
  have hsec : secAddr sevenShared.fsTable 1 = 2 := by decide
  constructor
  · refine ⟨⟨by decide, by rw [cluCnt_sevenArgs]; decide, (hlen (by decide)).1,
      fun h => absurd h (by decide), fun _ => ⟨by decide, by rw [cluCnt_sevenArgs]; decide⟩⟩,
      (hlen (by decide)).2, fun _ => ?_⟩
    rw [hsec]
    refine ⟨(leNat_congr fun i hi => secBytes_sevenShared (by omega)).trans (by decide), fun j hj => ?_⟩
    obtain rfl : j = 0 := Nat.lt_one_iff.mp hj
    rw [get32_congr fun i hi => secBytes_sevenShared (k := 4 + 4 * 0 + i) (by omega)]
    decide
  · exact ⟨⟨by decide, by rw [cluCnt_sevenArgs]; decide, (hlen (by decide)).1, fun _ => by decide,
      fun h => absurd h (by decide)⟩, (hlen (by decide)).2, fun h => absurd h (by decide)⟩

theorem file_sevenShared {f : ℤ} {cl : List ℤ} (hf : f = 1 ∧ cl = sharedClrs ∨ f = 2 ∧ cl = [2]) :
    ∃ t, devGetFileSeq sevenArgs sevenShared f = some (sortNodes (sevenNodes sharedTab f cl), t) ∧
      FileSeq sevenArgs (tab sevenArgs sevenShared.dev) f (sortNodes (sevenNodes sharedTab f cl)) := by
  obtain ⟨hst, hst'⟩ := stored_sevenShared
  rcases hf with ⟨rfl, rfl⟩ | ⟨rfl, rfl⟩
  · obtain ⟨t, hop⟩ := lookup_sevenSt (T := sharedTab) (by decide) hst (by decide)
    exact ⟨t, hop, fileSeq_sevenSt (sortNodes_perm _) hst.range (by decide) (by decide) (by decide)
      (by decide)⟩
  · obtain ⟨t, hop⟩ := lookup_sevenSt (T := sharedTab) (by decide) hst' (by decide)
    exact ⟨t, hop, fileSeq_sevenSt (sortNodes_perm _) hst'.range (by decide) (by decide) (by decide)
      (by decide)⟩

theorem consistent_sevenShared : Consistent sevenArgs sevenShared := by
  refine consistent_sevenSt ⟨by decide, by decide⟩ (fun i => rfl) (by decide) (by decide)
    fun f hf hf0 => ?_
  rcases (live_sevenShared hf0).mp hf with rfl | rfl
  · obtain ⟨t, hop, hfile⟩ := file_sevenShared (Or.inl ⟨rfl, rfl⟩)
    refine ⟨_, t, hop, hfile, ⟨1, 1, 0⟩, (sortNodes_perm _).mem_iff.mpr (by decide), rfl, ?_⟩
    rw [(sortNodes_perm _).length_eq]
    decide
  · obtain ⟨t, hop, hfile⟩ := file_sevenShared (Or.inr ⟨rfl, rfl⟩)
    refine ⟨_, t, hop, hfile, ⟨2, 1, 0⟩, (sortNodes_perm _).mem_iff.mpr (by decide), rfl, ?_⟩
    rw [(sortNodes_perm _).length_eq]
    decide

theorem nextBlks_sevenShared : nextBlks sevenArgs sevenShared.dev 1 = [⟨3, 1, 0⟩] := by
  unfold nextBlks
  rw [sevenShared, freeBlks_sevenSt]
  decide

theorem growable_sevenShared : ∃ t,
    devGetFileSeq sevenArgs sevenShared 1 = some (sortNodes (sevenNodes sharedTab 1 sharedClrs), t) ∧
      t.dev = sevenShared.dev ∧ t.fsBitmap = sevenShared.fsBitmap ∧ t.fsTable = sevenShared.fsTable ∧
      t.mapSeq 1 = some (sortNodes (sevenNodes sharedTab 1 sharedClrs)) ∧
      Growable sevenArgs t 1 (sortNodes (sevenNodes sharedTab 1 sharedClrs)) sharedClrs := by
  have hm := mounted_sevenSt sharedTab sharedData 96 (rootAnd sharedEntry)
  have hlive := (live_sevenShared (f := 1) (by decide)).mpr (Or.inl rfl)
  obtain ⟨t, hop, -⟩ := file_sevenShared (Or.inl ⟨rfl, rfl⟩)
  have hapart : SecApart sevenArgs sevenShared 1 := by
    refine Or.inr fun i => ?_
    rw [show secAddr sevenShared.fsTable 1 = 2 by decide, show tab sevenArgs sevenShared.dev 2 = sharedTab 2
      from tab_sevenSt _ _ _ _ (by decide) (by decide)]
    exact show (2 : UInt32) ≠ u32 1 by decide
  obtain ⟨hcached, hdev, -⟩ := lookup_cached hop
  obtain ⟨c, ht, hg⟩ := consistent_sevenShared.growable hm hlive (by decide) ⟨stored_sevenShared.1, hapart⟩ hop
  exact ⟨t, hop, hdev, by rw [ht]; rfl, by rw [ht]; rfl, hcached, hg⟩

/-- There is a block for file 1 to grow by one, and its array has been started. -/
theorem space_sevenShared : Space sevenArgs sevenShared.dev sharedClrs 1 := by
  refine ⟨?_, fun h => absurd h (by decide)⟩
  rw [sevenShared, freeBlks_sevenSt]
  decide

/-- **The size of file 2 is overwritten** when file 1 grows by one block: its array is saved, with two
elements behind the direct slots. -/
theorem overwritten_sevenShared {t u s' : St} {l l' : List BlkInfo} (hdev : t.dev = sevenShared.dev)
    (htbl : t.fsTable = sevenShared.fsTable)
    (hgr : GrewTo sevenArgs 1 l l' (grownClrs sevenArgs t.dev sharedClrs 1) t u)
    (hw : Wrote sevenArgs l' u s') :
    ∃ l₂, SeqOf sevenArgs sevenShared 2 l₂ ∧ content sevenArgs s'.dev l₂ ≠ content sevenArgs sevenShared.dev l₂ := by
  have haddr : secAddr sevenShared.fsTable 1 = 2 := by decide
  have htab2 : tab sevenArgs sevenShared.dev 2 = sharedTab 2 :=
    tab_sevenSt _ _ _ _ (by decide) (by decide)
  obtain ⟨t', hop', hfile'⟩ := file_sevenShared (f := 2) (Or.inr ⟨rfl, rfl⟩)
  have hclrs : grownClrs sevenArgs t.dev sharedClrs 1 = sharedClrs ++ [3] := by
    unfold grownClrs
    rw [hdev, nextBlks_sevenShared]
    show noteClr sevenArgs sharedClrs 3 = _
    unfold noteClr pushClr s1Len
    rw [lblkSz_sevenArgs]
    decide
  rw [hclrs] at hgr
  have hst := hgr.stored (by unfold secCap; rw [lblkSz_sevenArgs]; decide)
  have hsec : secAddr u.fsTable 1 = 2 := by
    rw [hgr.addr (by rw [htbl, haddr]; decide), htbl, haddr]
  have hcnt := (hst.words (by decide)).1
  rw [hsec] at hcnt
  -- block 1 of cluster 2 is not among the blocks written afterwards
  have hforeign : Foreign 1 2 := foreign_of_lt (by decide) (by decide) (by decide) (by decide) (by decide)
  have hown : Owns sevenArgs (tab sevenArgs u.dev) 2 (2, 1) := by
    refine (hgr.onFile.owns hforeign _).mpr ?_
    rw [hdev]
    refine ⟨by decide, by rw [cluCnt_sevenArgs]; decide, 0, rfl, ?_⟩
    rw [htab2]
    decide
  have hnot : ((2 : ℤ), 1) ∉ l'.map blkOf := by
    intro hin
    obtain ⟨-, -, i, hi, hf⟩ := (hgr.list.mem _).mp hin
    obtain ⟨-, -, j, hj, hf'⟩ := hown
    obtain rfl : i = j := Fin.ext (by omega)
    exact absurd (hf.symm.trans hf') (by decide)
  have hdata := hw.blks 2 1 hnot
  -- so the size of file 2 is 2 and was 1
  have hb : (⟨2, 1, 0⟩ : BlkInfo) ∈ sortNodes (sevenNodes sharedTab 2 [2]) :=
    (sortNodes_perm _).mem_iff.mpr (by decide)
  have hold : leNat 4 (content sevenArgs sevenShared.dev (sortNodes (sevenNodes sharedTab 2 [2]))) =
      leNat 4 (sharedData 2 1) := size_sevenSt hfile'.seqOk hb rfl
  have hnew := leNat_content hfile'.seqOk (by rw [lblkSz_sevenArgs]; decide) s'.dev hb rfl
  have hbytes : leNat 4 (sevenArgs.ciph.decrypt sevenArgs.lblkSz (data sevenArgs s'.dev 2 1)) =
      leNat 4 (secBytes sevenArgs u.dev 2) := by
    refine leNat_congr fun i hi => ?_
    show cut sevenArgs.lblkSz (data sevenArgs s'.dev 2 1) i = _
    unfold secBytes
    rw [hdata, lblkSz_sevenArgs, cut_of_lt _ (by omega), Nat.div_eq_of_lt (by omega),
      Nat.mod_eq_of_lt (by omega)]
  refine ⟨_, seqOf_of_lookup hop', fun hsame => ?_⟩
  rw [hsame] at hnew
  have heq := hold.symm.trans (hnew.trans (hbytes.trans hcnt))
  exact absurd heq (by decide)

/-- **A write to one file changes another**: the list of file 1 grows, and its array is saved over
the size of file 2. -/
theorem not_isolated_sevenShared : Mounted sevenArgs sevenShared.dev ∧
    Consistent sevenArgs sevenShared ∧ Live sevenShared.fsTable 1 ∧ Live sevenShared.fsTable 2 ∧
    WriteSpace sevenArgs sevenShared 1 sharedClrs 1 7168 ∧
    ¬ Isolated sevenArgs sevenShared [] (fun _ => 7) 1 7168 1 := by
  have hm := mounted_sevenSt sharedTab sharedData 96 (rootAnd sharedEntry)
  have hc := consistent_sevenShared
  have hlive := (live_sevenShared (f := 1) (by decide)).mpr (Or.inl rfl)
  have hlive' := (live_sevenShared (f := 2) (by decide)).mpr (Or.inr rfl)
  have hsm : sevenArgs.cluCnt ≤ 65535 := by rw [cluCnt_sevenArgs]; decide
  obtain ⟨t, hop, hdev, hbm, htbl, -, hg⟩ := growable_sevenShared
  have hcount : (writeNeed sevenArgs 1 7168 -
      (sortNodes (sevenNodes sharedTab 1 sharedClrs)).length).toNat = 1 := by
    rw [(sortNodes_perm _).length_eq]
    decide
  have hspace : WriteSpace sevenArgs sevenShared 1 sharedClrs 1 7168 := by
    intro l u hl _
    obtain ⟨rfl, -⟩ := Prod.mk.inj (Option.some.inj (hop.symm.trans hl))
    rw [hcount]
    exact space_sevenShared
  refine ⟨hm, hc, hlive, hlive', hspace, ?_⟩
  rintro ⟨r, s', hw, hun, -⟩
  have hsz := hc.sizes 1 (Or.inr hlive) _ (seqOf_of_lookup hop)
  have h31 := (hc.files 1 hlive (by decide) _ (seqOf_of_lookup hop)).bytes_lt hm
  obtain ⟨l', u, s'', hop'', hgr, hwr, -⟩ := opsWrite_eq (t := t) hsm (by decide) hlive.lt
    (by rw [hdev]; exact hm) (by rw [hdev, hbm]; exact hc.agree) hop hg [] (fun _ => 7)
    (show 7168 + 4 + 1 < 2 ^ 31 by decide)
    (by rw [hdev]; exact lt_of_le_of_lt (Nat.le_of_add_left_le hsz) h31)
    (by rw [hdev]; exact hspace _ t hop)
  obtain rfl : s'' = s' := (Prod.mk.inj (Option.some.inj (hop''.symm.trans hw))).2
  rw [hcount] at hgr
  obtain ⟨l₂, hseq, hne⟩ := overwritten_sevenShared hdev htbl hgr hwr
  exact hne ((hun 2 (Or.inr hlive') (by decide)).content l₂ hseq)

end Fcfs.Vol
