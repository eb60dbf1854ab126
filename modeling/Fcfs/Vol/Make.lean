import Fcfs.Vol.Alloc
import Fcfs.Vol.DirWrite

/-! # Making a file

`dev_create_file` takes the first free block for the file and writes the directory, and
`dev_init_file` writes the size header (`VolOk.make`). The new file is `Newborn`: all but what is
cached of its blocks is in order. The volume is in order then if no other list is cached under the
identifier (`Made.volOk`). -/

namespace Fcfs.Vol

open Lib.Bytes Lib.Paged

/-- **A file with one block** and no size yet. -/
structure Newborn (a : Args) (f c : ℤ) (b : ℕ) (s : St) : Prop where
  stored : Stored a s.dev s.fsTable f [c]
  sec : secAddr s.fsTable f = 0
  cache : s.clrsCache.fid = f → clrsAt a s.clrsCache 0 = c
  nodes : nodesAt a (tab a s.dev) f = [⟨c, b, 0⟩]
  lnk : (s.fsTable.entrs f).lnkCnt = 1

section Newborn
variable {a : Args} {s s' : St} {f p c : ℤ} {b : ℕ}

theorem Newborn.pos (h : Newborn a f c b s) (hf : f ≠ 0) : 1 ≤ c ∧ c < a.cluCnt := by
  have hmem : (⟨c, b, 0⟩ : BlkInfo) ∈ nodesAt a (tab a s.dev) f := by
    rw [h.nodes]
    exact List.mem_singleton_self _
  exact ((mem_nodesAt hf).mp hmem).1

theorem Newborn.ownNodes (h : Newborn a f c b s) (hf : f ≠ 0) :
    ownNodes (tab a s.dev) f [c] = [⟨c, b, 0⟩] := by
  have hperm := ownNodes_perm (T := tab a s.dev) hf (List.nodup_singleton c)
    (fun x hx => List.mem_singleton.mp hx ▸ h.pos hf) fun x h1 hx i hfid => ?_
  · rw [h.nodes] at hperm
    exact List.perm_singleton.mp hperm
  · have hmem : (⟨x, i.val + 1, (tab a s.dev x i).num.toNat⟩ : BlkInfo) ∈ nodesAt a (tab a s.dev) f :=
      (mem_nodesAt hf).mpr ⟨⟨h1, hx⟩, i, rfl, hfid, rfl⟩
    rw [h.nodes, List.mem_singleton] at hmem
    exact List.mem_singleton.mpr (congrArg BlkInfo.cid hmem)

theorem Newborn.ownBids (h : Newborn a f c b s) (hf : f ≠ 0) : ownBids (tab a s.dev c) f = [b] := by
  have hown := h.ownNodes hf
  unfold Vol.ownNodes at hown
  rw [List.flatMap_singleton] at hown
  have hbid := congrArg (List.map BlkInfo.bid) hown
  unfold nodesOf at hbid
  rw [List.map_map] at hbid
  exact hbid

/-- **The file is in order** when its size fits and nothing else is cached of it. -/
theorem Newborn.nums (h : Newborn a f c b s) : ((nodesAt a (tab a s.dev) f).map BlkInfo.num).Perm
    (List.range (nodesAt a (tab a s.dev) f).length) := by
  rw [h.nodes]
  exact List.Perm.refl _

theorem Newborn.fileSz (h : Newborn a f c b s) (hf : f ≠ 0) (hL : 1024 ≤ a.lblkSz) :
    fileSz a s.dev (nodesAt a (tab a s.dev) f) = leNat 4 (a.ciph.decrypt a.lblkSz (data a s.dev c b)) := by
  have hseq := seqOk_nodesAt (by have := h.pos hf; omega) h.nums
  rw [h.nodes] at hseq ⊢
  exact leNat_content hseq (by omega) s.dev (List.mem_singleton_self _) rfl

theorem Newborn.fileOk (h : Newborn a f c b s) (hf : f ≠ 0) (hL : 1024 ≤ a.lblkSz)
    (hcache : CacheOk s.clrsCache f [c]) (hcached : ∀ l, s.mapSeq f = some l → l = [⟨c, b, 0⟩])
    (hsz : 4 + leNat 4 (a.ciph.decrypt a.lblkSz (data a s.dev c b)) ≤ a.lblkSz) :
    FileOk a s f [c] := by
  refine ⟨fun hz => absurd hz hf, fun _ => h.stored, Or.inl h.sec, hcache, ?_, h.nums, ?_,
    fun l hl => ?_, ?_⟩
  · rw [h.ownNodes hf, h.nodes]
  · rw [h.nodes]
    exact List.cons_ne_nil _ _
  · rw [h.nodes, hcached l hl]
  · rw [h.fileSz hf hL, h.nodes, List.length_singleton, Nat.one_mul]
    exact hsz

theorem Newborn.of_onFile (h : Newborn a f c b s) (hon : OnFile a p s s') (hp0 : 0 ≤ p)
    (hp : p < tableLen) (hf0 : 0 < f) (hf : f < tableLen) (hne : f ≠ p) : Newborn a f c b s' := by
  have hent := hon.others f hne
  have hsec : secAddr s'.fsTable f = 0 := by
    unfold secAddr
    rw [hent]
    exact h.sec
  have hst := h.stored
  refine ⟨⟨⟨fun i hi => hent ▸ hst.slots i hi, hst.range, hst.bound, fun _ => hsec,
    fun hlong => absurd hlong (by simp)⟩, hst.cap, fun hlong => absurd hlong (by simp)⟩, hsec,
    fun hfid => ?_, ?_, hent ▸ h.lnk⟩
  · rcases hon.clrs with heq | hp'
    · rw [heq] at hfid ⊢
      exact h.cache hfid
    · exact absurd (hfid.symm.trans hp') hne
  · rw [nodesAt_other hon hp0 hp hne (by omega) hf]
    exact h.nodes

/-! ### The size header -/

/-- The block `dev_init_file` writes. -/
def zeroBlk (a : Args) : Buf := a.ciph.encrypt a.lblkSz (cut sizeofFileHeader fun _ => 0)

theorem leNat_zeroBlk (a : Args) :
    leNat 4 (a.ciph.decrypt a.lblkSz (cut a.lblkSz (zeroBlk a))) = 0 := by
  unfold zeroBlk
  rw [Cipher.cut_encrypt, Cipher.decrypt_encrypt]
  have hz : leNat 4 (cut a.lblkSz (cut sizeofFileHeader fun _ => 0)) = leNat 4 (leByte 0) := by
    refine leNat_congr fun i _ => ?_
    unfold cut leByte
    simp
  rw [hz, leNat_leByte]
  rfl

theorem Newborn.get (h : Newborn a f c b s) (hm : Mounted a s.dev) (hf : f ≠ 0) :
    ∃ c', devTblClrsGet a s f 0 = some (c, { s with clrsCache := c' }) ∧
      (s.clrsCache.fid = f → c' = s.clrsCache) ∧ (s.clrsCache.fid ≠ f → Loaded c' f [c]) := by
  have hclu := hm.cluCnt_lt
  obtain ⟨h1, hc⟩ := h.pos hf
  have hpos : 0 < s1Len a := lt_of_lt_of_le Nat.one_pos h.stored.bound
  by_cases hfid : s.clrsCache.fid = f
  · refine ⟨s.clrsCache, ?_, fun _ => rfl, fun hne => absurd hfid hne⟩
    rw [devTblClrsGet_of_fid hfid, h.cache hfid]
  · obtain ⟨c', hcnt, hl⟩ := devTblClrsCnt_eq hm hf h.stored (CacheOk.of_ne hfid)
    refine ⟨c', ?_, fun heq => absurd heq hfid, fun _ => hl⟩
    have hload : clrsLoad a s f = some { s with clrsCache := c' } := by
      unfold clrsLoad
      rw [if_pos hfid, hcnt]
      rfl
    have hget := devTblClrsGet_eq (a := a) (s := { s with clrsCache := c' }) hl
      (h.stored.small hclu) (i := 0) (by simp) hpos
    rw [devTblClrsGet_of_fid hl.fid] at hget
    unfold devTblClrsGet
    rw [hload, Option.bind_eq_bind, Option.bind_some]
    exact hget

/-- **`dev_init_file`** writes the size 0. -/
theorem Newborn.init (h : Newborn a f c b s) (hm : Mounted a s.dev) (hag : Agree a s.dev s.fsBitmap)
    (hf : f ≠ 0) : ∃ r s', devInitFile a s f = some (r, s') ∧ OnFile a f s s' ∧ Newborn a f c b s' ∧
      leNat 4 (a.ciph.decrypt a.lblkSz (data a s'.dev c b)) = 0 ∧ tab a s'.dev = tab a s.dev ∧
      (∀ c' b', (c', b') ≠ (c, b) → data a s'.dev c' b' = data a s.dev c' b') ∧
      s'.mapSeq = s.mapSeq ∧ (s.clrsCache.fid = f → s'.clrsCache = s.clrsCache) ∧
      (s.clrsCache.fid ≠ f → Loaded s'.clrsCache f [c]) := by
  have hL : 1024 ≤ a.lblkSz := hm.geo.le_lblkSz
  obtain ⟨c', hget, hsame, hload⟩ := h.get hm hf
  obtain ⟨h1, hc⟩ := h.pos hf
  have hpos : 0 < s1Len a := lt_of_lt_of_le Nat.one_pos h.stored.bound
  obtain ⟨t, ht⟩ : ∃ t : St, t = { s with clrsCache := c' } := ⟨_, rfl⟩
  rw [← ht] at hget
  have hdev : t.dev = s.dev := by rw [ht]
  have htbl : t.fsTable = s.fsTable := by rw [ht]
  have hont : OnFile a f s t := by
    rw [ht]
    refine OnFile.memory hm hag rfl rfl rfl rfl ?_ fun _ _ => rfl
    by_cases hfid : s.clrsCache.fid = f
    · exact Or.inl (hsame hfid)
    · exact Or.inr (hload hfid).fid
  have hown : Vol.ownBids (tab a t.dev c) f = [b] := by
    rw [hdev]
    exact h.ownBids hf
  have hbid : 1 ≤ b ∧ b ≤ 7 := by
    obtain ⟨i, rfl, -⟩ := mem_ownBids.mp (hown ▸ List.mem_singleton_self b)
    omega
  have hin : InVol a c b := ⟨by omega, hc, Nat.lt_succ_of_le hbid.2⟩
  have hmt := hont.mounted
  obtain ⟨u, hu⟩ : ∃ u : St, u = { t with dev := putBlk a t.dev c b (zeroBlk a) } := ⟨_, rfl⟩
  have hdata : data a u.dev = fun c' k =>
      if c' = c ∧ k = b then cut a.lblkSz (zeroBlk a) else data a t.dev c' k := by
    rw [hu]
    exact data_putBlk _ hin hbid.1
  have hw : Wrote a [⟨c, b, 0⟩] t u := by
    rw [hu]
    refine ⟨hmt.putBlk _ _ _, tab_putBlk hmt _ hin hbid.1, fun c' k hck => ?_, rfl, [(c, b)], rfl,
      fun e he => by simpa [blkOf] using he⟩
    have hne : ¬ (c' = c ∧ k = b) := fun heq => hck (by rw [heq.1, heq.2]; exact List.mem_singleton_self _)
    rw [data_putBlk _ hin hbid.1]
    exact if_neg hne
  have hnew : Newborn a f c b u := by
    have htab : u.fsTable = s.fsTable := by
      rw [hu]
      exact htbl
    have hst := h.stored
    refine ⟨htab ▸ ⟨hst.toAnchored, hst.cap, fun hlong => absurd hlong (by simp)⟩, htab ▸ h.sec,
      fun _ => ?_, ?_, htab ▸ h.lnk⟩
    · have hclrs : u.clrsCache = c' := by rw [hu, ht]
      rw [hclrs]
      by_cases hfid : s.clrsCache.fid = f
      · rw [hsame hfid]
        exact h.cache hfid
      · exact clrsAt_eq (hload hfid) (h.stored.small hm.cluCnt_lt) (by simp) hpos
    · rw [hw.tabs, hdev]
      exact h.nodes
  have hav : ∀ x ∈ [(⟨c, b, 0⟩ : BlkInfo)], Avail a t f x.cid x.bid := by
    intro x hx
    rw [List.mem_singleton.mp hx]
    obtain ⟨i, hi, hfid⟩ := mem_ownBids.mp (hown ▸ List.mem_singleton_self b)
    exact ⟨Or.inl h1, hbid, Or.inl ⟨i, hi, Or.inr hfid⟩⟩
  refine ⟨if a.lblkSz = sizeofFileHeader then 0 else -1, u, ?_, hont.trans (hw.onFile hont.agree hav),
    hnew, ?_, by rw [hw.tabs, hdev], fun c' b' hne => ?_, by rw [hu, ht], by rw [hu, ht]; exact hsame,
    by rw [hu, ht]; exact hload⟩
  · unfold devInitFile
    refine Option.bind_eq_some_iff.mpr ⟨_, hget, ?_⟩
    refine Option.bind_eq_some_iff.mpr ⟨_, hmt.devReadCtable_eq (by omega) hc, ?_⟩
    rw [devGetBlocks_ctable, hown, hu]
    exact hmt.devWriteBlock_eq hin _ _ true
  · have hblk : data a u.dev c b = cut a.lblkSz (zeroBlk a) := by
      rw [hdata]
      exact if_pos ⟨rfl, rfl⟩
    rw [hblk, leNat_zeroBlk]
  · rw [hw.blks c' b' (by simpa [blkOf] using hne), hdev]

end Newborn

/-! ### Creating -/

section Create
variable {a : Args} {s s' t : St} {f p : ℤ} {q : ℤ × ℕ}

/-- **Allocating makes a file with one block**, if no other first cluster is cached of it. -/
theorem Alloced.newborn (h : Alloced a f q s s') (hL : 1024 ≤ a.lblkSz) (hsm : a.cluCnt ≤ 65535)
    (hf : f ≠ 0) (hq : q ∈ freeBlks a (tab a s.dev))
    (hno : ∀ c : ℤ, 0 ≤ c → c < a.cluCnt → ∀ i, (tab a s.dev c i).fid ≠ u32 f)
    (hfirst : s.clrsCache.fid = f → clrsAt a s.clrsCache 0 = q.1) : Newborn a f q.1 q.2 s' := by
  obtain ⟨h1, hc, hb1, hb7, -⟩ := freeBlk_in hq
  have hmem := h.mem
  have hclrs : s'.clrsCache = s.clrsCache := by rw [hmem]; rfl
  have hent : s'.fsTable.entrs f = firstEntry q.1 := by rw [h.table, setEntry_self]
  exact ⟨h.stored hsm h1 hc hL, secAddr_firstEntry hent, by rw [hclrs]; exact hfirst,
    h.nodesAt hf h1 hc ⟨hb1, hb7⟩ hno, by rw [hent]; rfl⟩

theorem Alloced.onFile_self (h : Alloced a f q s s') (hq : q ∈ freeBlks a (tab a s.dev)) :
    OnFile a f s s' := by
  obtain ⟨h1, -, -, -, i, hi, hfree⟩ := freeBlk_in hq
  have hself : setEntry s f (s.fsTable.entrs f) = s := by
    unfold setEntry
    rw [Function.update_eq_self]
  rw [← hself]
  refine h.onFile ⟨h1, fun j hj => ?_⟩
  obtain rfl : j = i := Fin.ext (by omega)
  exact hfree

/-- **Room for one more entry** in the directory, when the file has got its block. -/
def RoomIn (a : Args) (s : St) (f p : ℤ) (q : ℤ × ℕ) : Prop :=
  ∀ t, Alloced a f q s t → Fits a t p (dirNeed a ((dirOf a s.dev p).length + 1))

theorem Fits.congr {u : St} {need : ℤ} {cl : List ℤ} (h : Fits a t p need) (hok : FileOk a t p cl)
    (hd : u.dev = t.dev) (htbl : u.fsTable = t.fsTable) : Fits a u p need := by
  intro cl' hok' hlt
  have hcl : cl' = cl := by
    by_cases hp : p = 0
    · rw [(hok'.root hp).2, (hok.root hp).2]
    · have hst := hok'.stored hp
      rw [hd, htbl] at hst
      exact hst.unique (hok.stored hp)
  rw [hd] at hlt ⊢
  rw [hcl]
  exact h cl hok hlt

/-- The entry `dev_create_file` appends. -/
def newEntry (now : UInt64) (f : ℤ) (name : List UInt8) (mode : UInt32) : DirEntry :=
  ⟨u16 f, mode, now, now, now, nameField name⟩

/-- The caches hold nothing else of an earlier file with the identifier. -/
structure Forgotten (s : St) (f : ℤ) (q : ℤ × ℕ) : Prop where
  clrs : s.clrsCache.fid = f → Loaded s.clrsCache f [q.1]
  seq : ∀ l, s.mapSeq f = some l → l = [⟨q.1, q.2, 0⟩]

theorem Forgotten.first (h : Forgotten s f q) (hm : Mounted a s.dev) (hq : q ∈ freeBlks a (tab a s.dev))
    (hfid : s.clrsCache.fid = f) : clrsAt a s.clrsCache 0 = q.1 := by
  have hclu := hm.cluCnt_lt
  have hL : 1024 ≤ a.lblkSz := hm.geo.le_lblkSz
  obtain ⟨h1, hc, -⟩ := freeBlk_in hq
  refine clrsAt_eq (h.clrs hfid) (fun x hx => ?_) (by simp) (by unfold s1Len; omega)
  rw [List.mem_singleton.mp hx]
  omega

theorem Forgotten.cacheOk (h : Forgotten s f q) : CacheOk s.clrsCache f [q.1] := by
  by_cases hfid : s.clrsCache.fid = f
  · exact (h.clrs hfid).cacheOk
  · exact CacheOk.of_ne hfid

theorem setEntry_congr (h : t.fsTable = s.fsTable) {e : TableEntry} :
    (setEntry t f e).fsTable = (setEntry s f e).fsTable := by
  unfold setEntry
  rw [h]

/-- What is allocated after a lookup is what would have been allocated before it. -/
theorem Alloced.of_looked {u : St} (h : Alloced a f q t u) (hlook : Looked a s t) :
    Alloced a f q s { setEntry s f (firstEntry q.1) with dev := u.dev, fsBitmap := u.fsBitmap } := by
  have hdev := hlook.dev
  obtain ⟨new, hlog, hnew⟩ := h.log
  refine ⟨h.mounted, h.agree, rfl, fun c i => ?_, ?_, new, ?_, hnew⟩
  · rw [← hdev]
    exact h.tabs c i
  · rw [← hdev]
    exact h.blks
  · unfold devLog
    rw [← hdev]
    exact hlog

theorem RoomIn.of_looked (h : RoomIn a s f p q) (hv : VolOk a s) (hlook : Looked a s t)
    (hp : p = 0 ∨ Live s.fsTable p) (hf0 : 0 < f) (hft : f < tableLen) (hpf : p ≠ f)
    (hq : q ∈ freeBlks a (tab a s.dev)) : RoomIn a t f p q := by
  intro u hal
  have hL : 1024 ≤ a.lblkSz := hv.mounted.geo.le_lblkSz
  have hdev := hlook.dev
  obtain ⟨hp0, hpt⟩ := fid_range hp
  obtain ⟨cl, -, hok⟩ := hv.files p hp
  have hal' := hal.of_looked hlook
  have hok' := hok.of_onFile (hal'.onFile_self hq) (by omega) hft hpf hL
    (hv.owned (by omega) hft) (hv.distinct p f hp0 hpt (by omega) hft hpf) hp0 hpt
  rw [hdev]
  exact (h _ hal').congr hok' rfl (hal.table.trans (setEntry_congr hlook.table))

/-- The directory has room for one more entry without growing. -/
def NoGrowth (a : Args) (s : St) (p : ℤ) : Prop :=
  dirNeed a ((dirOf a s.dev p).length + 1) ≤ (nodesAt a (tab a s.dev) p).length

/-- **What `dev_create_file` leaves behind**: the new file newborn, and its entry in the directory. -/
structure Created (a : Args) (f p : ℤ) (q : ℤ × ℕ) (e : DirEntry) (s s' : St) : Prop where
  but : VolBut a {f} s'
  newborn : Newborn a f q.1 q.2 s'
  seq : s'.mapSeq f = s.mapSeq f
  ids : s'.mapFid = s.mapFid
  clrs : s'.clrsCache = s.clrsCache ∨ s'.clrsCache.fid ≠ f
  same : s.mapSeq p ≠ none → NoGrowth a s p → s'.clrsCache = s.clrsCache
  tabs : NoGrowth a s p → ∀ c i, tab a s'.dev c i =
    if (c, i.val + 1) = q then ⟨u32 f, 0⟩ else tab a s.dev c i
  dir : dirOf a s'.dev p = dirOf a s.dev p ++ [e]
  bytes : fileBytes a s'.dev p = dirBytes (dirOf a s.dev p ++ [e])
  others : ∀ g : ℤ, 0 ≤ g → g < tableLen → g ≠ f → g ≠ p → fileBytes a s'.dev g = fileBytes a s.dev g
  links : ∀ g, g ≠ f → (s'.fsTable.entrs g).lnkCnt = (s.fsTable.entrs g).lnkCnt
  blks : NoGrowth a s p → ∀ c b, (c, b) ≠ q → (c, b) ∉ (nodesAt a (tab a s.dev) p).map blkOf →
    data a s'.dev c b = data a s.dev c b

/-- **`dev_create_file`** creates the file. -/
theorem VolOk.createFile (hv : VolOk a s) (hsm : a.cluCnt ≤ 65535) (hp : p = 0 ∨ Live s.fsTable p)
    (hf0 : 0 < f) (hft : f < tableLen) (hdead : ¬ Live s.fsTable f) {rest : List (ℤ × ℕ)}
    (hq : freeBlks a (tab a s.dev) = q :: rest)
    (hfirst : s.clrsCache.fid = f → clrsAt a s.clrsCache 0 = q.1) (hroom : RoomIn a s f p q)
    (now : UInt64) {name : List UInt8} (hname : name.length < 32) (mode : UInt32) :
    ∃ r s', devCreateFile a s now p f name mode = some (r, s') ∧
      Created a f p q (newEntry now f name mode) s s' := by
  have hL : 1024 ≤ a.lblkSz := hv.mounted.geo.le_lblkSz
  have hqin : q ∈ freeBlks a (tab a s.dev) := by rw [hq]; exact List.mem_cons_self
  have hpf : p ≠ f := by
    rintro rfl
    exact hp.elim (fun hz => by omega) hdead
  obtain ⟨hp0, hpt⟩ := fid_range hp
  obtain ⟨clf, hfree⟩ := hv.free f hf0 hft hdead
  -- the directory is read
  obtain ⟨r, t, hread, hr, hlook, hids, hself, -⟩ := devReadDir_eq hv.sound hp
  have hvt := hlook.volOk hv
  have hdev := hlook.dev
  have hfirst' : t.clrsCache.fid = f → clrsAt a t.clrsCache 0 = q.1 := by
    intro hfid
    rcases hlook.clrs f hf0 hft hdead with heq | hne
    · rw [heq] at hfid ⊢
      exact hfirst hfid
    · exact absurd hfid hne
  rw [← hdev] at hq hqin
  obtain ⟨clf', hfree'⟩ : ∃ cl, FreeOk a t f cl := hvt.free f hf0 hft (by rw [hlook.table]; exact hdead)
  -- the block is taken
  obtain ⟨u, halloc, hal⟩ := devFileAlloc_eq hvt.mounted hvt.agree (f := f) hq
  have hon := hal.onFile_self hqin
  have hnb : Newborn a f q.1 q.2 u :=
    hal.newborn hL hsm (by omega) hqin hfree'.none hfirst'
  have hvu : VolBut a {f} u := (hvt.but {f}).step rfl hon (by omega) hft (Or.inl hnb.sec)
  have hpu : p = 0 ∨ Live u.fsTable p := by
    rw [live_congr (hon.others p hpf), hlook.table]
    exact hp
  obtain ⟨clp, hndp, hokp⟩ := hvu.files p hpf hpu
  -- and the directory written
  have hfits : Fits a u p (dirNeed a ((dirOf a s.dev p).length + 1)) := by
    rw [← hdev]
    exact hroom.of_looked hv hlook hp hf0 hft hpf (by rw [← hdev]; exact hqin) u hal
  have hlen : (r.getD [] ++ [newEntry now f name mode]).length = (dirOf a s.dev p).length + 1 := by
    rw [List.length_append, hr, List.length_singleton]
  have hmem := hal.mem
  have hclrsu : u.clrsCache = t.clrsCache := by rw [hmem]; rfl
  have hsequ : u.mapSeq = t.mapSeq := by rw [hmem]; rfl
  have hidsu : u.mapFid = t.mapFid := by rw [hmem]; rfl
  obtain ⟨r', v, hw, hwr, hdir, hbytes, hsame⟩ := hokp.writeDir hon.mounted hon.agree hsm hndp hp0 hpt
    (r.getD [] ++ [newEntry now f name mode]) (by rw [hlen]; exact hfits)
  have honp := hwr.onFile
  -- a directory that does not grow before the block is taken does not grow after it
  have hno' : NoGrowth a s p → dirNeed a (r.getD [] ++ [newEntry now f name mode]).length ≤
      (nodesAt a (tab a u.dev) p).length := by
    intro hno
    rw [hlen, nodesAt_other hon (by omega) hft hpf hp0 hpt, hdev]
    exact hno
  refine ⟨r', v, ?_, hvu.step_file hpu honp hwr.fileOk fun hne => ?_,
    hnb.of_onFile honp hp0 hpt hf0 hft (Ne.symm hpf), ?_, honp.ids.trans (hidsu.trans hids), ?_,
    fun hseq hno => ?_, fun hno c i => ?_, by rw [hdir, hr], by rw [hbytes, hr],
    fun g hg0 hgt hgf hgp => ?_, fun g hgf => ?_, fun hno c b hq hb => ?_⟩
  · unfold devCreateFile
    rw [if_neg (by omega)]
    refine Option.bind_eq_some_iff.mpr ⟨_, hread, ?_⟩
    refine Option.bind_eq_some_iff.mpr ⟨_, halloc, ?_⟩
    dsimp only
    rw [if_neg (by omega)]
    exact hw
  · rw [hwr.lnk]
    exact hvu.lnk p hpf (hpu.resolve_left hne) hne
  · rw [honp.seqs f (Ne.symm hpf), hsequ]
    exact hlook.seqs f hf0 hft hdead
  · rcases honp.clrs with heq | hfid
    · rw [heq, hclrsu]
      exact hlook.clrs f hf0 hft hdead
    · exact Or.inr fun heq => hpf (hfid.symm.trans heq)
  · -- the directory is cached and does not grow
    obtain rfl := hself hseq
    obtain ⟨-, -, -, -, hclrs⟩ := hsame (hno' hno)
    exact (hclrs (by rw [hsequ]; exact hseq)).trans hclrsu
  · obtain ⟨htab, -⟩ := hsame (hno' hno)
    rw [htab, hal.tabs, hdev]
  · rw [honp.fileBytes hp0 hpt hgp hg0 hgt hokp.owned,
      hon.fileBytes (by omega) hft hgf hg0 hgt (hvt.owned (by omega) hft), hdev]
  · have hu : u.fsTable.entrs g = s.fsTable.entrs g := by
      rw [hon.others g hgf, hlook.table]
    by_cases hgp : g = p
    · rw [hgp] at hu ⊢
      rw [hwr.lnk, hu]
    · rw [honp.others g hgp, hu]
  · obtain ⟨-, -, -, hdata, -⟩ := hsame (hno' hno)
    rw [nodesAt_other hon (by omega) hft hpf hp0 hpt, hdev] at hdata
    rw [hdata c b hb, hal.blks, hdev]

/-- **What making a file leaves behind**: the volume but for what is cached of the file. -/
structure Made (a : Args) (f p : ℤ) (q : ℤ × ℕ) (e : DirEntry) (s s' : St) : Prop where
  but : VolBut a {f} s'
  newborn : Newborn a f q.1 q.2 s'
  size : leNat 4 (a.ciph.decrypt a.lblkSz (data a s'.dev q.1 q.2)) = 0
  seq : s'.mapSeq f = s.mapSeq f
  ids : s'.mapFid = s.mapFid
  clrs : s'.clrsCache = s.clrsCache ∨ Loaded s'.clrsCache f [q.1]
  same : s.clrsCache.fid = f → s.mapSeq p ≠ none → NoGrowth a s p → s'.clrsCache = s.clrsCache
  tabs : NoGrowth a s p → ∀ c i, tab a s'.dev c i =
    if (c, i.val + 1) = q then ⟨u32 f, 0⟩ else tab a s.dev c i
  dir : dirOf a s'.dev p = dirOf a s.dev p ++ [e]
  bytes : fileBytes a s'.dev p = dirBytes (dirOf a s.dev p ++ [e])
  others : ∀ g : ℤ, 0 ≤ g → g < tableLen → g ≠ f → g ≠ p → fileBytes a s'.dev g = fileBytes a s.dev g
  links : ∀ g, g ≠ f → (s'.fsTable.entrs g).lnkCnt = (s.fsTable.entrs g).lnkCnt
  blks : NoGrowth a s p → ∀ c b, (c, b) ≠ q → (c, b) ∉ (nodesAt a (tab a s.dev) p).map blkOf →
    data a s'.dev c b = data a s.dev c b

theorem VolOk.make (hv : VolOk a s) (hsm : a.cluCnt ≤ 65535) (hp : p = 0 ∨ Live s.fsTable p)
    (hf0 : 0 < f) (hft : f < tableLen) (hdead : ¬ Live s.fsTable f) {rest : List (ℤ × ℕ)}
    (hq : freeBlks a (tab a s.dev) = q :: rest)
    (hfirst : s.clrsCache.fid = f → clrsAt a s.clrsCache 0 = q.1) (hroom : RoomIn a s f p q)
    (now : UInt64) {name : List UInt8} (hname : name.length < 32) (mode : UInt32) :
    ∃ r t r' s', devCreateFile a s now p f name mode = some (r, t) ∧
      devInitFile a t f = some (r', s') ∧ Made a f p q (newEntry now f name mode) s s' := by
  have hne : f ≠ 0 := by omega
  have hpf : p ≠ f := by
    rintro rfl
    exact hp.elim (fun hz => hne hz) hdead
  obtain ⟨hp0, hpt⟩ := fid_range hp
  obtain ⟨r, t, hcreate, hc⟩ := hv.createFile hsm hp hf0 hft hdead hq hfirst hroom now hname mode
  have hvt := hc.but
  obtain ⟨r', s', hinit, hon, hnb, hsz, htab, hdata, hseq, hkeep, hload⟩ :=
    hc.newborn.init hvt.mounted hvt.agree hne
  refine ⟨r, t, r', s', hcreate, hinit, hvt.step rfl hon (by omega) hft (Or.inl hnb.sec), hnb, hsz,
    by rw [hseq, hc.seq], hon.ids.trans hc.ids, ?_, fun hfid hp' hno => ?_, fun hno c i => ?_, ?_, ?_,
    fun g hg0 hgt hgf hgp => ?_, fun g hgf => ?_, fun hno c b hq hb => ?_⟩
  · by_cases hfid : t.clrsCache.fid = f
    · exact Or.inl ((hkeep hfid).trans (hc.clrs.resolve_right fun hne' => hne' hfid))
    · exact Or.inr (hload hfid)
  · have heq := hc.same hp' hno
    exact (hkeep (by rw [heq]; exact hfid)).trans heq
  · rw [htab]
    exact hc.tabs hno c i
  · rw [← hc.dir]
    unfold dirOf
    rw [nodesAt_other hon (by omega) hft hpf hp0 hpt,
      content_other hon (by omega) hft hpf hp0 hpt (Or.inl hc.newborn.sec)]
  · rw [hon.fileBytes (by omega) hft hpf hp0 hpt (Or.inl hc.newborn.sec)]
    exact hc.bytes
  · rw [hon.fileBytes (by omega) hft hgf hg0 hgt (Or.inl hc.newborn.sec)]
    exact hc.others g hg0 hgt hgf hgp
  · rw [hon.others g hgf]
    exact hc.links g hgf
  · rw [hdata c b hq]
    exact hc.blks hno c b hq hb

theorem Made.live {e : DirEntry} (h : Made a f p q e s s') (hf0 : 0 < f) (hft : f < tableLen) :
    Live s'.fsTable f := ⟨by omega, hft, by rw [h.newborn.lnk]; decide⟩

theorem Made.fileSz {e : DirEntry} (h : Made a f p q e s s') (hf0 : 0 < f) :
    fileSz a s'.dev (nodesAt a (tab a s'.dev) f) = 0 :=
  (h.newborn.fileSz (by omega) h.but.mounted.geo.le_lblkSz).trans h.size

/-- **The new file is in order**, if nothing else is cached of it. -/
theorem Made.fileOk {e : DirEntry} (h : Made a f p q e s s') (hf0 : 0 < f) (hf : Forgotten s f q) :
    FileOk a s' f [q.1] := by
  have hL : 1024 ≤ a.lblkSz := h.but.mounted.geo.le_lblkSz
  refine h.newborn.fileOk (by omega) hL ?_ (fun l hl => hf.seq l (h.seq ▸ hl)) ?_
  · rcases h.clrs with heq | hl
    · rw [heq]
      exact hf.cacheOk
    · exact hl.cacheOk
  · rw [h.size]
    omega

/-- **Making a file keeps the volume in order**, if nothing else is cached of it. -/
theorem Made.volOk {e : DirEntry} (h : Made a f p q e s s') (hf0 : 0 < f) (hft : f < tableLen)
    (hf : Forgotten s f q) : VolOk a s' := by
  have hbut := h.but
  rw [← insert_empty_eq] at hbut
  exact (hbut.close (fun _ => ⟨_, List.nodup_singleton _, h.fileOk hf0 hf⟩)
    (fun _ hdead => absurd (h.live hf0 hft) hdead) fun _ _ => h.newborn.lnk).volOk

end Create

end Fcfs.Vol
