import Fcfs.Vol.Contents

/-! # Writing to files in order

Growing a file leaves it in order (`FileOk.grewTo`), and so does writing to its blocks, as long as
the size in the header fits (`FileOk.wrote`). Together: `ops_write` keeps the volume in order
(`VolOk.write`), if there is space and no cluster list outgrows what is stored of it. -/

namespace Fcfs.Vol

open Lib.Bytes Lib.Paged

section File
variable {a : Args} {s u : St} {f : ℤ} {l l' : List BlkInfo} {cl cl' : List ℤ}

/-- A block list with the right numbers is the list of nodes in the tables. -/
theorem FileSeq.perm_nodesAt {T : ℤ → Fin 7 → BlkEnt} (h : FileSeq a T f l) (hf : f ≠ 0)
    (hnum : ∀ b ∈ l, ∀ i : Fin 7, b.bid = i.val + 1 → (T b.cid i).num.toNat = b.num) :
    l.Perm (nodesAt a T f) := by
  refine perm_of_mem h.nodup (nodup_nodesAt a T f) fun b => ?_
  rw [mem_nodesAt hf]
  constructor
  · intro hb
    obtain ⟨-, hc, i, hi, hfid⟩ := h.owns hb
    exact ⟨⟨h.pos b hb, hc⟩, i, hi, hfid, (hnum b hb i hi).symm⟩
  · rintro ⟨⟨h1, hc⟩, i, hi, hfid, hn⟩
    obtain ⟨b', hb', heq⟩ := List.mem_map.mp ((h.mem (blkOf b)).mpr ⟨by simp only [blkOf]; omega, hc, i, hi, hfid⟩)
    obtain ⟨hcid, hbid⟩ := Prod.mk.inj heq
    have hn' := hnum b' hb' i (hbid.trans hi)
    rw [hcid, ← hn] at hn'
    obtain ⟨c, bid, n⟩ := b
    obtain ⟨c', bid', n'⟩ := b'
    simp only at hcid hbid hn'
    rw [hcid, hbid, ← hn'] at hb'
    exact hb'

theorem GrewTo.perm_nodesAt (hgr : GrewTo a f l l' cl' s u) (hf : f ≠ 0)
    (hl : l.Perm (nodesAt a (tab a s.dev) f)) : l'.Perm (nodesAt a (tab a u.dev) f) := by
  refine hgr.list.perm_nodesAt hf fun b hb i hi => ?_
  by_cases hbl : b ∈ l
  · obtain ⟨-, j, hj, -, hn⟩ := (mem_nodesAt hf).mp (hl.mem_iff.mp hbl)
    obtain rfl : j = i := Fin.ext (by omega)
    rw [hgr.kept b hbl j hi, hn]
  · exact hgr.nums b hb hbl i hi

theorem GrewTo.fileSz (hgr : GrewTo a f l l' cl' s u) (hL : 1024 ≤ a.lblkSz) (hl : SeqOk a l)
    (hne : l ≠ []) : fileSz a u.dev l' = fileSz a s.dev l := by
  have hpos := List.length_pos_iff.mpr hne
  have hfour : 4 ≤ l.length * a.lblkSz := (by omega : 4 ≤ 1 * a.lblkSz).trans (Nat.mul_le_mul_right _ hpos)
  exact fileSz_congr fun p hp => content_prefix hl hgr.list.seqOk hgr.pre hgr.content (by omega)

/-- **A file that has grown is in order.** -/
theorem FileOk.grewTo (h : FileOk a s f cl) (hgr : GrewTo a f l l' cl' s u) (hf : f ≠ 0)
    (hL : 1024 ≤ a.lblkSz) (hl : l.Perm (nodesAt a (tab a s.dev) f)) (hpre : cl <+: cl')
    (hnd : cl'.Nodup) (hcap : cl'.length ≤ 13 + secCap a) : FileOk a u f cl' := by
  have hl' := hgr.perm_nodesAt hf hl
  have hseq := h.seqOk.perm hl
  have hne : l ≠ [] := by
    rintro rfl
    exact h.ne hl.symm.eq_nil
  have hst := hgr.stored hcap
  -- every cluster with a block of the file is noted
  have hall : ∀ c : ℤ, 1 ≤ c → c < a.cluCnt → ∀ i, (tab a u.dev c i).fid = u32 f → c ∈ cl' := by
    intro c h1 hc i hfid
    have hin : (⟨c, i.val + 1, (tab a u.dev c i).num.toNat⟩ : BlkInfo) ∈ l' :=
      hl'.mem_iff.mpr ((mem_nodesAt hf).mpr ⟨⟨h1, hc⟩, i, rfl, hfid, rfl⟩)
    by_cases hbl : (⟨c, i.val + 1, (tab a u.dev c i).num.toNat⟩ : BlkInfo) ∈ l
    · have hnode := h.nodes.symm.mem_iff.mp (hl.mem_iff.mp hbl)
      exact hpre.subset (mem_ownNodes.mp hnode).1
    · exact hgr.noted hcap _ hin hbl
  refine ⟨fun hz => absurd hz hf, fun _ => hst, hgr.owned h.owned, hgr.cache,
    ownNodes_perm hf hnd hst.range hall, ?_, fun hnil => ?_, fun l₀ hl₀ => ?_, ?_⟩
  · rw [← hl'.length_eq]
    exact (hl'.symm.map BlkInfo.num).trans hgr.list.nums
  · exact hgr.list.ne (hnil ▸ hl').eq_nil
  · obtain rfl := Option.some.inj (hgr.seq.symm.trans hl₀)
    exact hl'
  · have hsz := h.size
    have hlen := hgr.pre.length_le
    rw [fileSz_perm hgr.list.seqOk hl'.symm, hgr.fileSz hL hseq hne, fileSz_perm h.seqOk hl,
      ← hl'.length_eq]
    rw [← hl.length_eq] at hsz
    exact hsz.trans (Nat.mul_le_mul_right _ hlen)

/-- **A file that has been written to is in order**, if its size still fits. -/
theorem FileOk.wrote (h : FileOk a s f cl) (hw : Wrote a l s u) (hf : f ≠ 0 → u32 f ≠ u32 (-1))
    (hL : 1024 ≤ a.lblkSz) (hl : l.Perm (nodesAt a (tab a s.dev) f))
    (hsz : 4 + Vol.fileSz a u.dev l ≤ l.length * a.lblkSz) : FileOk a u f cl := by
  have hmem := hw.mem
  have htab : u.fsTable = s.fsTable := by rw [hmem]
  have hcache : u.clrsCache = s.clrsCache := by rw [hmem]
  have hseqs : u.mapSeq = s.mapSeq := by rw [hmem]
  refine ⟨fun hz => by rw [htab]; exact h.root hz, fun hz => ?_, ?_, by rw [hcache]; exact h.cache, ?_,
    ?_, ?_, fun l₀ hl₀ => ?_, ?_⟩
  · rw [htab]
    refine (h.stored hz).congr hL fun b _ _ => ?_
    by_cases hs : secAddr s.fsTable f = 0
    · -- cluster 0 has no block of the file either
      refine hw.blks _ _ fun hin => ?_
      obtain ⟨b', hb', heq⟩ := List.mem_map.mp hin
      have hpos := ((mem_nodesAt hz).mp (hl.mem_iff.mp hb')).1.1
      have hcid : b'.cid = secAddr s.fsTable f := congrArg Prod.fst heq
      omega
    · refine hw.blks _ _ fun hin => ?_
      obtain ⟨b', hb', heq⟩ := List.mem_map.mp hin
      obtain ⟨-, i, -, hfid, -⟩ := (mem_nodesAt hz).mp (hl.mem_iff.mp hb')
      have hcid : b'.cid = secAddr s.fsTable f := congrArg Prod.fst heq
      rw [hcid, (h.owned.resolve_left hs) i] at hfid
      exact hf hz hfid.symm
  · unfold SecOwned
    rw [htab, hw.tabs]
    exact h.owned
  all_goals rw [hw.tabs]
  · exact h.nodes
  · exact h.nums
  · exact h.ne
  · rw [hseqs] at hl₀
    exact h.cached l₀ hl₀
  · rw [fileSz_perm (h.seqOk.perm hl) hl.symm, ← hl.length_eq]
    exact hsz

end File

/-! ### Room for what is written -/

section Hold
variable {a : Args} {s : St} {f : ℤ}

theorem onFile_looked (hm : Mounted a s.dev) (hag : Agree a s.dev s.fsBitmap) {c : ClrsCache}
    {l : List BlkInfo} (hc : c = s.clrsCache ∨ c.fid = f) : OnFile a f s (looked s f c l) :=
  OnFile.memory hm hag rfl rfl rfl rfl hc fun _ hg => Function.update_of_ne hg _ _

/-- **The file can have `need` blocks**: it has them, or it is not the root, there is space for the
missing ones, and its cluster list can be stored then. -/
def Fits (a : Args) (s : St) (f : ℤ) (need : ℤ) : Prop :=
  ∀ cl, FileOk a s f cl → ((nodesAt a (tab a s.dev) f).length : ℤ) < need → f ≠ 0 ∧
    Space a s.dev cl (need - (nodesAt a (tab a s.dev) f).length).toNat ∧
      (grownClrs a s.dev cl (need - (nodesAt a (tab a s.dev) f).length).toNat).length ≤ 13 + secCap a

theorem FileOk.avail {cl : List ℤ} (hok : FileOk a s f cl) {b : BlkInfo}
    (hb : b ∈ nodesAt a (tab a s.dev) f) : Avail a s f b.cid b.bid := by
  obtain ⟨-, -, h1, h7⟩ := hok.seqOk.inVol b hb
  obtain ⟨hc, i, hi, hfid, -⟩ := mem_ownNodes.mp hb
  by_cases hf : f = 0
  · subst hf
    rw [clustersOf_root, List.mem_singleton] at hc
    exact ⟨Or.inr ⟨rfl, hc⟩, ⟨h1, h7⟩, Or.inl ⟨i, hi, Or.inr hfid⟩⟩
  · exact ⟨Or.inl ((mem_clustersOf hf).mp hc).1, ⟨h1, h7⟩, Or.inl ⟨i, hi, Or.inr hfid⟩⟩

/-- **The list `l'` is the file's, and long enough**, after a lookup and maybe growing. -/
structure Held (a : Args) (f : ℤ) (l' : List BlkInfo) (s u : St) : Prop where
  onFile : OnFile a f s u
  ok : ∃ cl' : List ℤ, cl'.Nodup ∧ FileOk a u f cl' ∧ ∀ cl, FileOk a s f cl → cl <+: cl'
  list : l'.Perm (nodesAt a (tab a u.dev) f)
  seq : u.mapSeq f = some l'
  lnk : (u.fsTable.entrs f).lnkCnt = (s.fsTable.entrs f).lnkCnt
  addr : secAddr s.fsTable f ≠ 0 → secAddr u.fsTable f = secAddr s.fsTable f
  claims : ClaimsOnly a f s u
  kept : nodesAt a (tab a s.dev) f ⊆ l'
  longer : (nodesAt a (tab a s.dev) f).length ≤ l'.length
  content : ∀ p < (nodesAt a (tab a s.dev) f).length * a.lblkSz,
    content a u.dev l' p = content a s.dev (nodesAt a (tab a s.dev) f) p
  blks : ∀ c b, data a u.dev c b = data a s.dev c b ∨ c = secAddr u.fsTable f ∧ c ≠ 0

/-- The device, the bitmap and the table are the same, and with a cached list of the file all is. -/
structure Same (f : ℤ) (s u : St) : Prop where
  dev : u.dev = s.dev
  bitmap : u.fsBitmap = s.fsBitmap
  table : u.fsTable = s.fsTable
  cached : s.mapSeq f ≠ none → u = s

/-- **`dev_get_file_seq` and growing**, for a file that can have the blocks. -/
theorem FileOk.hold {cl : List ℤ} {need : ℤ} (hm : Mounted a s.dev) (hag : Agree a s.dev s.fsBitmap)
    (hsm : a.cluCnt ≤ 65535) (hok : FileOk a s f cl) (hnd : cl.Nodup) (hf0 : 0 ≤ f)
    (hft : f < tableLen) (hfits : Fits a s f need) :
    ∃ l t l' u, devGetFileSeq a s f = some (l, t) ∧
      growTo a t l need f = some ((l'.length : ℤ), l', u) ∧ need ≤ l'.length ∧ Held a f l' s u ∧
      (need ≤ (nodesAt a (tab a s.dev) f).length → Same f s u) := by
  have hL : 1024 ≤ a.lblkSz := hm.geo.le_lblkSz
  obtain ⟨l, c, hop, hl, hc⟩ := hok.lookup hm
  have hlook := onFile_looked hm hag (l := l) (hc.imp_right Loaded.fid)
  have hokt := hok.looked_self hl hc
  have hfit := hfits cl hok
  have hcont := content_perm hok.seqOk hl s.dev
  rw [← hl.length_eq] at hfit
  have hmap : (looked s f c l).mapSeq f = some l := Function.update_self _ _ _
  by_cases hlt : (l.length : ℤ) < need
  · obtain ⟨hf, hspace, hcap⟩ := hfit hlt
    have hg := hok.growable hag (by omega) hft hl hc
    obtain ⟨l', u, hgrow, hle, hgr, -⟩ := growTo_eq hsm (by omega) hft (s := looked s f c l) hm hag hg
      hmap fun _ => hspace
    refine ⟨l, _, l', u, hop, hgrow, hle, ⟨hlook.trans hgr.onFile, ⟨_, nodup_foldl_noteClr a _ hnd,
      hokt.grewTo hgr hf hL hl (prefix_foldl_noteClr a _ _) (nodup_foldl_noteClr a _ hnd) hcap,
      fun cl' hok' => hok'.unique hok ▸ prefix_foldl_noteClr a _ _⟩,
      hgr.perm_nodesAt hf hl, hgr.seq, hgr.lnk, hgr.addr, hgr.claims,
      fun b hb => hgr.pre.subset (hl.mem_iff.mpr hb), ?_, fun p hp => ?_, hgr.blks⟩, fun hno => ?_⟩
    · rw [← hl.length_eq]
      exact hgr.pre.length_le
    · rw [← hl.length_eq] at hp
      rw [← hcont]
      exact content_prefix (hok.seqOk.perm hl) hgr.list.seqOk hgr.pre hgr.content hp
    · rw [← hl.length_eq] at hno
      exact absurd hlt (not_lt.mpr hno)
  · exact ⟨l, _, l, _, hop, if_neg hlt, not_lt.mp hlt, ⟨hlook, ⟨cl, hnd, hokt,
      fun cl' hok' => hok'.unique hok ▸ List.prefix_rfl⟩, hl, hmap, rfl, fun _ => rfl, fun _ _ => Or.inl,
      fun b hb => hl.mem_iff.mpr hb, hl.length_eq.ge, fun p _ => congrFun hcont p,
      fun _ _ => Or.inl rfl⟩, fun _ => ⟨rfl, rfl, rfl, looked_eq_self hop⟩⟩

end Hold

/-! ### Writing -/

/-- **What writing to a file in order leaves behind**: the file is in order, its cluster list starts
with what it was, and its block list is cached and as long as it has to be. -/
structure Written (a : Args) (f : ℤ) (need : ℤ) (s s' : St) : Prop where
  onFile : OnFile a f s s'
  ok : ∃ cl' : List ℤ, cl'.Nodup ∧ FileOk a s' f cl' ∧ ∀ cl, FileOk a s f cl → cl <+: cl'
  lnk : (s'.fsTable.entrs f).lnkCnt = (s.fsTable.entrs f).lnkCnt
  addr : secAddr s.fsTable f ≠ 0 → secAddr s'.fsTable f = secAddr s.fsTable f
  claims : ClaimsOnly a f s s'
  kept : nodesAt a (tab a s.dev) f ⊆ nodesAt a (tab a s'.dev) f
  seq : ∃ l, s'.mapSeq f = some l ∧ need ≤ l.length

/-- **The bytes are put into the contents**, and the size is raised. What the blocks that are new
held on the old device stands around them. -/
structure Put (a : Args) (f : ℤ) (data : Buf) (size offset : ℕ) (s s' : St) : Prop where
  old : ∀ p < (nodesAt a (tab a s.dev) f).length * a.lblkSz,
    content a s.dev (nodesAt a (tab a s'.dev) f) p = content a s.dev (nodesAt a (tab a s.dev) f) p
  put : content a s'.dev (nodesAt a (tab a s'.dev) f) =
    memcpy (memcpy (content a s.dev (nodesAt a (tab a s'.dev) f)) (offset + 4) data size) 0
      (leByte (max (fileSz a s.dev (nodesAt a (tab a s.dev) f)) (offset + size))) 4

section Write
variable {a : Args} {s u s' : St} {f : ℤ} {l' : List BlkInfo}

theorem Held.wrote {need : ℤ} (h : Held a f l' s u) (hw : Wrote a l' u s') (hf0 : 0 ≤ f) (hft : f < tableLen)
    (hsz : 4 + fileSz a s'.dev l' ≤ l'.length * a.lblkSz) (hle : need ≤ l'.length) :
    Written a f need s s' := by
  obtain ⟨cl, hnd, hok, hpre⟩ := h.ok
  have hag := h.onFile.agree
  have hmem := hw.mem
  have hseqs : s'.mapSeq = u.mapSeq := by rw [hmem]
  refine ⟨h.onFile.trans (hw.onFile hag fun b hb => hok.avail (h.list.mem_iff.mp hb)),
    ⟨cl, hnd, hok.wrote hw (fun hf => (u32_fid (by omega) hft).2) h.onFile.mounted.geo.le_lblkSz h.list
      hsz, hpre⟩, ?_, ?_, fun c i hcl => ?_, fun b hb => ?_, l', by rw [hseqs]; exact h.seq, hle⟩
  · rw [hmem]
    exact h.lnk
  · rw [hmem]
    exact h.addr
  · rw [hw.tabs] at hcl
    rw [hmem]
    exact h.claims c i hcl
  · rw [hw.tabs]
    exact h.list.mem_iff.mp (h.kept hb)

theorem Written.fileOk {need : ℤ} (h : Written a f need s s') :
    ∃ cl : List ℤ, cl.Nodup ∧ FileOk a s' f cl := by
  obtain ⟨cl, hnd, hok, -⟩ := h.ok
  exact ⟨cl, hnd, hok⟩

theorem fits_of_le {need : ℤ} (h : need ≤ (nodesAt a (tab a s.dev) f).length) : Fits a s f need :=
  fun _ _ hlt => absurd hlt (not_lt.mpr h)

theorem Held.fileSz (h : Held a f l' s u) {cl : List ℤ} (hok : FileOk a s f cl) (hL : 1024 ≤ a.lblkSz) :
    fileSz a u.dev l' = fileSz a s.dev (nodesAt a (tab a s.dev) f) := by
  have hpos := List.length_pos_iff.mpr hok.ne
  have hfour : 4 ≤ (nodesAt a (tab a s.dev) f).length * a.lblkSz :=
    (by omega : 4 ≤ 1 * a.lblkSz).trans (Nat.mul_le_mul_right _ hpos)
  exact fileSz_congr fun p hp => h.content p (by omega)

theorem Held.content_dev (h : Held a f l' s u) (hf0 : 0 ≤ f) (hft : f < tableLen) :
    Vol.content a u.dev l' = Vol.content a s.dev l' := by
  obtain ⟨cl, -, hok, -⟩ := h.ok
  refine content_congr fun b hb => (h.blks b.cid b.bid).resolve_right ?_
  rintro ⟨hc, h0⟩
  have hb' := h.list.mem_iff.mp hb
  by_cases hf : f = 0
  · rw [hf, nodesAt_root] at hb'
    exact h0 (mem_nodesOf.mp hb').1
  · -- no block of the file lies in its address cluster
    obtain ⟨-, i, -, hfid, -⟩ := (mem_nodesAt hf).mp hb'
    rw [hc] at hfid h0
    rw [hok.owned.resolve_left h0 i] at hfid
    exact (u32_fid (by omega) hft).2 hfid.symm

theorem leNat_header {c : Buf} {n : ℕ} (hn : n < 2 ^ 32) : leNat 4 (memcpy c 0 (leByte n) 4) = n := by
  have hbytes : leNat 4 (memcpy c 0 (leByte n) 4) = leNat 4 (leByte n) :=
    leNat_congr fun i hi => by rw [memcpy_in (by omega) (by omega), Nat.sub_zero]
  rw [hbytes, leNat_leByte, Nat.mod_eq_of_lt (by omega)]

/-- **`ops_write` to a file in order** leaves it in order. -/
theorem FileOk.write {cl : List ℤ} {s₀ : St} (hm : Mounted a s.dev) (hag : Agree a s.dev s.fsBitmap)
    (hsm : a.cluCnt ≤ 65535) (hok : FileOk a s f cl) (hnd : cl.Nodup) (hf0 : 0 ≤ f)
    (hft : f < tableLen) {path : Path} {fh : ℤ} (hfid : writeFid a s₀ path fh = some (f, s)) (data : Buf)
    {size offset : ℕ} (hlen : offset + 4 + size < 2 ^ 31) (hfits : Fits a s f (writeNeed a size offset)) :
    ∃ s', opsWrite a s₀ path data size offset fh = some ((size : ℤ), s') ∧
      Written a f (writeNeed a size offset) s s' ∧ Put a f data size offset s s' := by
  have hL : 1024 ≤ a.lblkSz := hm.geo.le_lblkSz
  have hbytes := hok.seqOk.bytes_lt hm
  have hsz := hok.size
  obtain ⟨l, t, l', u, hop, hgrow, hle, hheld, -⟩ := hok.hold hm hag hsm hnd hf0 hft hfits
  obtain ⟨clu, -, hoku, -⟩ := hheld.ok
  have hfsz := hheld.fileSz hok hL
  obtain ⟨hneed, hcnt⟩ := writeNeed_eq hm hlen
  have hle' : pages a.lblkSz (offset + 4 + size) ≤ l'.length := by
    rw [hneed] at hle
    exact Int.ofNat_le.mp hle
  have hne' : l' ≠ [] := by
    rintro rfl
    exact hoku.ne hheld.list.symm.eq_nil
  obtain ⟨v, w, tmp, hread, hwrite, hsize, hset, hw, hcont⟩ := write_pages hheld.onFile.mounted
    (hoku.seqOk.perm hheld.list) hne' hheld.seq data hle' hlen (by rw [hfsz]; omega)
  rw [hfsz] at hsize hset hcont
  -- the size stands in the header now, and the blocks hold it
  have hsize' : Vol.fileSz a w.dev l' =
      max (Vol.fileSz a s.dev (nodesAt a (tab a s.dev) f)) (offset + size) := by
    unfold Vol.fileSz
    rw [hcont]
    exact leNat_header (by omega)
  have hpg := (pages_le_iff (show 0 < a.lblkSz by omega)).mp hle'
  have hlong := Nat.mul_le_mul_right a.lblkSz hheld.longer
  have hdev := hheld.content_dev hf0 hft
  have hnodes : ∀ d, content a d (nodesAt a (tab a w.dev) f) = content a d l' := fun d => by
    rw [hw.tabs]
    exact content_perm (hoku.seqOk.perm hheld.list) hheld.list.symm d
  refine ⟨w, ?_, hheld.wrote hw hf0 hft (by rw [hsize']; omega) hle, fun p hp => ?_,
    by rw [hnodes, hnodes, hcont, hdev]⟩
  · have hblk : ((offset + 4 : ℕ) : ℤ) / (a.lblkSz : ℤ) = ((offset + 4) / a.lblkSz : ℕ) := by
      rw [Int.natCast_ediv]
    unfold writeNeed at hgrow
    unfold opsWrite
    refine Option.bind_eq_some_iff.mpr ⟨_, hfid, ?_⟩
    refine Option.bind_eq_some_iff.mpr ⟨_, hop, ?_⟩
    refine Option.bind_eq_some_iff.mpr ⟨_, hgrow, ?_⟩
    dsimp only
    rw [hcnt, hblk, if_neg (Int.not_lt.mpr (Int.natCast_nonneg _)),
      if_neg (Int.not_lt.mpr (Int.natCast_nonneg _)), Int.toNat_natCast]
    refine Option.bind_eq_some_iff.mpr ⟨_, hread, ?_⟩
    refine Option.bind_eq_some_iff.mpr ⟨_, hwrite, ?_⟩
    dsimp only
    rw [if_pos rfl]
    refine Option.bind_eq_some_iff.mpr ⟨_, hsize, ?_⟩
    dsimp only
    rw [write_size (by omega) hlen]
    refine Option.bind_eq_some_iff.mpr ⟨_, hset, ?_⟩
    dsimp only
    rw [cint_of_lt (by omega) (by omega)]
  · rw [hnodes, ← hdev]
    exact hheld.content p hp

/-- **A write that begins no later than the file ends** overwrites its bytes. -/
theorem Put.fileBytes {cl : List ℤ} {data : Buf} {size offset : ℕ} (h : Put a f data size offset s s')
    (hm : Mounted a s.dev) (hok : FileOk a s f cl) (hlen : offset + 4 + size < 2 ^ 31)
    (hoff : offset ≤ (fileBytes a s.dev f).length) :
    fileBytes a s'.dev f = overwrite (fileBytes a s.dev f) data size offset := by
  have hsz := hok.size
  have hbytes := hok.seqOk.bytes_lt hm
  rw [length_fileBytes] at hoff
  refine bytesOf_put hoff (max_lt (by unfold Vol.fileSz at hsz; omega) (by omega)) fun p hp => ?_
  rw [h.put]
  unfold Vol.fileSz at hsz hoff ⊢
  by_cases h4 : p < 4
  · rw [memcpy_in (Nat.zero_le p) (by omega), memcpy_in (Nat.zero_le p) (by omega)]
  · have hhead : ∀ (c : Buf) (n : ℕ), memcpy c 0 (leByte n) 4 p = c p := fun c n => memcpy_out (by omega)
    rw [hhead, hhead]
    by_cases hin : offset + 4 ≤ p ∧ p < offset + 4 + size
    · rw [memcpy_in hin.1 hin.2, memcpy_in hin.1 hin.2]
    · rw [memcpy_out (by omega), memcpy_out (by omega)]
      exact h.old p (by omega)

/-- **A step on the root or a file** that leaves it in order, with its links. -/
theorem VolOk.step_file {need : ℤ} (hv : VolOk a s) (hf : f = 0 ∨ Live s.fsTable f)
    (h : Written a f need s s') : VolOk a s' :=
  ((hv.but ∅).step_file hf h.onFile h.fileOk fun hne =>
    h.lnk.trans (hv.lnk f (hf.resolve_left hne) hne)).volOk

/-- **Writing keeps the volume in order.** -/
theorem VolOk.write {s₀ : St} (hv : VolOk a s) (hsm : a.cluCnt ≤ 65535) (hf : f = 0 ∨ Live s.fsTable f)
    {path : Path} {fh : ℤ} (hfid : writeFid a s₀ path fh = some (f, s)) (data : Buf)
    {size offset : ℕ} (hlen : offset + 4 + size < 2 ^ 31) (hfits : Fits a s f (writeNeed a size offset)) :
    ∃ s', opsWrite a s₀ path data size offset fh = some ((size : ℤ), s') ∧ VolOk a s' ∧
      Written a f (writeNeed a size offset) s s' ∧ Put a f data size offset s s' := by
  obtain ⟨h0, hft⟩ := fid_range hf
  obtain ⟨cl, hnd, hok⟩ := hv.files f hf
  obtain ⟨s', hw, hwritten, hput⟩ := hok.write hv.mounted hv.agree hsm hnd h0 hft hfid data hlen hfits
  exact ⟨s', hw, hv.step_file hf hwritten, hwritten, hput⟩

end Write

end Fcfs.Vol
