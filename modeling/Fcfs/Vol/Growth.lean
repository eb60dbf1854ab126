import Fcfs.Vol.ReadBack

/-! # Extending a block list, entry by entry

`Grown` says what extending a list leaves of a file and of the others. Here is what it does to the
cluster tables, entry by entry: the new nodes are free blocks, each is marked with the file and its
number, and no other entry changes but those of a cluster claimed for the second-level array. The
clusters of the new blocks are noted in the file's list, each once, and the table entries of all other
files stay (`extends_of_space`). A list with a cluster in it twice stays one, and a list whose count does
not fit an `int` is not extended (`not_extends_consistent`). -/

namespace Fcfs.Vol

open Lib.Bytes

/-- **What `dev_extd_blk_list` does to a list `l`** that has been looked up in `s`, with `t` left: it is
extended by the nodes `new`. -/
structure ListExtended (a : Args) (s t : St) (f : ℤ) (l : List BlkInfo) (count : ℕ)
    (new : List BlkInfo) (s' : St) : Prop where
  result : devExtdBlkList a t l l.length count f = some (((l.length + count : ℕ) : ℤ), l ++ new, s')
  size : new.length = count
  nums : new.map BlkInfo.num = (List.range count).map fun k => l.length + k
  nodup : (new.map blkOf).Nodup
  free : ∀ b ∈ new, 1 ≤ b.cid ∧ b.cid < a.cluCnt ∧
    ∃ i : Fin 7, b.bid = i.val + 1 ∧ (tab a s.dev b.cid i).fid = 0
  marked : ∀ b ∈ new, ∀ i : Fin 7, b.bid = i.val + 1 →
    tab a s'.dev b.cid i = ⟨u32 f, UInt32.ofNat b.num⟩
  others : ∀ c (i : Fin 7), (c, i.val + 1) ∉ new.map blkOf →
    tab a s'.dev c i = tab a s.dev c i ∨
      secAddr s.fsTable f = 0 ∧ c = secAddr s'.fsTable f ∧ 1 ≤ c ∧ c < a.cluCnt ∧
        AllFree (tab a s.dev c) ∧ tab a s'.dev c = claimed
  agree : Agree a s'.dev s'.fsBitmap
  entrs : ∀ g, g ≠ f → s'.fsTable.entrs g = s.fsTable.entrs g
  cached : s'.mapSeq f = some (l ++ new)
  list : FileSeq a (tab a s'.dev) f (l ++ new)

/-- **The clusters of the new blocks are noted** in the list of the file, each once. -/
def NotedOnce (a : Args) (s' : St) (f : ℤ) (new : List BlkInfo) : Prop :=
  ∃ cl, tableClrs a s' f = some cl ∧ ∀ b ∈ new, cl.count b.cid = 1

/-- **The block list of a file is extended by `count` blocks**, and their clusters are noted if the list
of clusters can be stored with them. -/
def ExtendsBy (a : Args) (s : St) (f : ℤ) (count : ℕ) : Prop :=
  ∃ l t new s', devGetFileSeq a s f = some (l, t) ∧ ListExtended a s t f l count new s' ∧
    ∀ cl, tableClrs a s f = some cl → (grownClrs a s.dev cl count).length ≤ 13 + secCap a →
      NotedOnce a s' f new

section Steps
variable {a : Args} {f : ℤ} {s t u : St} {c : ClrsCache} {l : List BlkInfo} {cl : List ℤ} {count : ℕ}

theorem Extended.others (h : Extended a f l cl count s c t u) {c' : ℤ} {i : Fin 7}
    (hf : u32 f ≠ 0)
    (hout : (c', i.val + 1) ∉ (renum (nextBlks a s.dev count) ((l.length : ℤ) - 1)).map blkOf) :
    tab a u.dev c' i = tab a s.dev c' i ∨
      secAddr s.fsTable f = 0 ∧ c' = secAddr u.fsTable f ∧ 1 ≤ c' ∧ c' < a.cluCnt ∧
        AllFree (tab a s.dev c') ∧ tab a u.dev c' = claimed := by
  have hmem := h.mark.mem
  have htable : t.fsTable = s.fsTable := by rw [hmem]
  rw [map_blkOf_renum] at hout
  have hold : tab a t.dev c' i = tab a s.dev c' i := h.mark.old c' i hout
  rcases h.note.tabs c' with heq | ⟨hsec, hc, h1, hlt, hfree, hcl⟩
  · exact Or.inl ((congrFun heq i).trans hold)
  · rw [htable] at hsec
    refine Or.inr ⟨hsec, hc, h1, hlt, fun j => ?_, hcl⟩
    -- a cluster that is free after the marking has no marked block
    rw [← hfree j]
    refine congrArg BlkEnt.fid (h.mark.old c' j fun hin => ?_).symm
    rw [← map_blkOf_renum _ ((l.length : ℤ) - 1)] at hin
    obtain ⟨b, hb, heq⟩ := List.mem_map.mp hin
    obtain ⟨rfl, hbid⟩ := Prod.mk.inj heq
    have hnew := h.mark.new b hb j hbid
    have hzero := hfree j
    rw [hnew] at hzero
    exact hf hzero

theorem Extended.marked (h : Extended a f l cl count s c t u) (hf : u32 f ≠ 0) {b : BlkInfo}
    (hb : b ∈ renum (nextBlks a s.dev count) ((l.length : ℤ) - 1)) {i : Fin 7}
    (hi : b.bid = i.val + 1) : tab a u.dev b.cid i = ⟨u32 f, UInt32.ofNat b.num⟩ := by
  have hnew := h.mark.new b hb i hi
  rw [h.note.entry (by rw [hnew]; exact hf), hnew]

theorem renum_free {n : ℤ} {b : BlkInfo} (hb : b ∈ renum (nextBlks a s.dev count) n) :
    1 ≤ b.cid ∧ b.cid < a.cluCnt ∧ ∃ i : Fin 7, b.bid = i.val + 1 ∧ (tab a s.dev b.cid i).fid = 0 := by
  have hblk := List.mem_map_of_mem (f := blkOf) hb
  rw [map_blkOf_renum] at hblk
  obtain ⟨b', hb', heq⟩ := List.mem_map.mp hblk
  obtain ⟨hcid, hbid⟩ := Prod.mk.inj heq
  obtain ⟨h1, hc, -, -, hfree⟩ := nextBlks_in hb'
  rw [hcid, hbid] at hfree
  rw [hcid] at h1 hc
  exact ⟨h1, hc, hfree⟩

end Steps

section Space
variable {a : Args} {s : St} {f : ℤ} {cl : List ℤ} {count : ℕ}

theorem nodup_noteClr (h : cl.Nodup) (c : ℤ) : (noteClr a cl c).Nodup := by
  unfold noteClr pushClr
  split_ifs with hin hlt
  · exact h
  · exact List.nodup_append.mpr ⟨h, List.nodup_singleton c, fun x hx y hy => by
      rintro rfl
      exact hin (List.mem_singleton.mp hy ▸ hx)⟩
  · exact h

theorem nodup_grownClrs (h : cl.Nodup) (d : Dev) : (grownClrs a d cl count).Nodup := by
  unfold grownClrs
  generalize (nextBlks a d count).map BlkInfo.cid = bs
  induction bs generalizing cl with
  | nil => exact h
  | cons c bs ih => exact ih (nodup_noteClr h c)

/-- **With space for them the blocks are added**, and their clusters noted. -/
theorem listExtended_of_space (hm : Mounted a s.dev) (hsm : a.cluCnt ≤ 65535) (hc : Consistent a s)
    (hlive : Live s.fsTable f) (hf : f ≠ 0) (hlist : ListOk a s f cl) (hcount : 1 ≤ count)
    (hspace : Space a s.dev cl count) :
    ∃ l t new s', devGetFileSeq a s f = some (l, t) ∧ ListExtended a s t f l count new s' ∧
      new.map BlkInfo.cid = (nextBlks a s.dev count).map BlkInfo.cid ∧
      ((grownClrs a s.dev cl count).length ≤ 13 + secCap a →
        tableClrs a s' f = some (grownClrs a s.dev cl count) ∧ ∀ b ∈ new, b.cid ∈ grownClrs a s.dev cl count) := by
  have hlive0 := hlive.nonneg
  have hf0 : 0 < f := by omega
  obtain ⟨hne0, -⟩ := u32_fid hf0 hlive.lt
  obtain ⟨l, t, hseq⟩ := hc.exists_lookup (Or.inr hlive)
  obtain ⟨c, ht, hg⟩ := hc.growable hm hlive hf hlist hseq
  have hdev : t.dev = s.dev := by rw [ht]; rfl
  have htbl : t.fsTable = s.fsTable := by rw [ht]; rfl
  have hmt : Mounted a t.dev := by rw [hdev]; exact hm
  have hagt : Agree a t.dev t.fsBitmap := by rw [ht]; exact hc.agree
  have hspace' : Space a t.dev cl count := by rw [hdev]; exact hspace
  have hlen := length_nextBlks hspace'.blks
  have hll := hg.list.length_le
  have hfl := freeBlks_length_le a (tab a t.dev)
  have hclu := cluCnt_lt hmt
  have hblks := hspace'.blks
  obtain ⟨c', m, u, h⟩ := devExtdBlkList_steps hsm hf0 hmt hagt hg hcount hspace'
  have hgr := reserve_grown hf0 hlive.lt hmt hagt hg h.fid h.mark h.note h.anchored h.loaded h.stored
    (by rw [hlen]; omega)
  have hres := h.result
  rw [List.length_append, length_renum, hlen] at hres
  rw [← hdev]
  refine ⟨l, t, _, _, hseq, ⟨hres, (length_renum _ _).trans hlen, ?_, ?_, fun b hb => ?_,
    fun b hb i hi => h.marked hne0 hb hi, fun c' i hout => ?_, hgr.onFile.agree, fun g hne => ?_, hgr.seq,
    hgr.list⟩, map_cid_renum _ _, fun hcap => ⟨(hgr.stored hcap).tableClrs hgr.onFile.mounted hf, hgr.noted hcap⟩⟩
  · rw [map_num_renum _ (by rw [hlen]; omega), hlen]
  · rw [map_blkOf_renum]
    exact nodup_nextBlks _ _ _
  · rw [← hdev]
    exact renum_free hb
  · rw [← hdev, ← htbl]
    exact h.others hne0 hout
  · rw [← htbl]
    exact hgr.onFile.others g hne

end Space

/-- **The list of a file in order is extended.** -/
theorem extends_of_space {a : Args} {s : St} {f : ℤ} {cl : List ℤ} {count : ℕ}
    (hm : Mounted a s.dev) (hsm : a.cluCnt ≤ 65535) (hc : Consistent a s) (hlive : Live s.fsTable f)
    (hf : f ≠ 0) (hlist : ListOk a s f cl) (hnd : cl.Nodup) (hcount : 1 ≤ count)
    (hspace : Space a s.dev cl count) : ExtendsBy a s f count := by
  obtain ⟨l, t, new, s', hseq, hext, -, hnoted⟩ :=
    listExtended_of_space hm hsm hc hlive hf hlist hcount hspace
  refine ⟨l, t, new, s', hseq, hext, fun cl' hcl hcap => ?_⟩
  obtain rfl := Option.some.inj ((hlist.stored.tableClrs hm hf).symm.trans hcl)
  obtain ⟨htbl, hmem⟩ := hnoted hcap
  exact ⟨_, htbl, fun b hb => List.count_eq_one_of_mem (nodup_grownClrs hnd s.dev) (hmem b hb)⟩

/-- A file of one block is extended by another. -/
theorem extends_sevenPair : ExtendsBy sevenArgs sevenPair 1 1 := by
  have hst := stored_sevenPair (f := 1) (Or.inl rfl)
  have hlen := length_foldl_noteClr_le sevenArgs ((nextBlks sevenArgs sevenPair.dev 1).map BlkInfo.cid) [1]
  have hone : (nextBlks sevenArgs sevenPair.dev 1).length ≤ 1 := by
    unfold nextBlks
    rw [List.length_map]
    exact List.length_take_le _ _
  rw [List.length_map, List.length_singleton] at hlen
  refine extends_of_space (mounted_sevenSt _ _ _ _) (by rw [cluCnt_sevenArgs]; decide) consistent_sevenPair
    ((live_sevenPair (by decide)).mpr (Or.inl rfl)) (by decide) ⟨hst, Or.inl (by decide)⟩
    (List.nodup_singleton 1) (le_refl 1) ⟨?_, fun _ hlong => ?_⟩
  · rw [sevenPair, freeBlks_sevenSt]
    decide
  · unfold grownClrs at hlong
    omega

/-! ### Lists that are not in order -/

/-- Cluster 1 has the blocks of file 1. -/
def twiceTab (c : ℕ) (i : Fin 7) : BlkEnt :=
  if c = 0 then ⟨0, UInt32.ofNat i⟩
  else if c = 1 then ⟨1, UInt32.ofNat i⟩
  else ⟨0, 0⟩

/-- File 1 lists cluster 1, and cluster 2 twice. -/
def twiceEntry (f : ℤ) : TableEntry :=
  if f = 1 then ⟨1, fun i => if i = 0 then 1 else if i ≤ 2 then 2 else 0⟩ else TableEntry.zero

/-- A consistent volume on which the list of a file has a cluster twice that has no block of it. -/
def sevenTwice : St := sevenSt twiceTab (fun _ _ _ => 0) 64 (rootAnd twiceEntry)

theorem live_sevenTwice {f : ℤ} (hf : f ≠ 0) : Live sevenTwice.fsTable f ↔ f = 1 := by
  constructor
  · intro h
    by_contra hne
    refine h.lnk ?_
    show (rootAnd twiceEntry f).lnkCnt = 0
    rw [rootAnd, if_neg hf, twiceEntry, if_neg hne]
    rfl
  · rintro rfl
    exact ⟨by decide, by decide, by decide⟩

theorem stored_sevenTwice : Stored sevenArgs sevenTwice.dev sevenTwice.fsTable 1 [1, 2, 2] := by
  have hlen : 3 ≤ s1Len sevenArgs ∧ 3 ≤ 13 + secCap sevenArgs := by
    unfold s1Len secCap
    rw [lblkSz_sevenArgs]
    omega
  exact ⟨⟨by decide, by rw [cluCnt_sevenArgs]; decide, hlen.1, fun _ => by decide,
    fun h => absurd h (by decide)⟩, hlen.2, fun h => absurd h (by decide)⟩

theorem consistent_sevenTwice : Consistent sevenArgs sevenTwice := by
  refine consistent_sevenSt ⟨by decide, by decide⟩ (fun i => rfl) (by decide) (by decide)
    fun f hf hf0 => ?_
  obtain rfl := (live_sevenTwice hf0).mp hf
  have hst := stored_sevenTwice
  obtain ⟨t, hop⟩ := lookup_sevenSt (T := twiceTab) (by decide) hst (by decide)
  refine ⟨_, t, hop, fileSeq_sevenSt (sortNodes_perm _) hst.range (by decide) (by decide) (by decide)
    (by decide), ⟨1, 1, 0⟩, (sortNodes_perm _).mem_iff.mpr (by decide), rfl, ?_⟩
  rw [(sortNodes_perm _).length_eq]
  decide

theorem nextBlks_sevenTwice : nextBlks sevenArgs sevenTwice.dev 1 = [⟨2, 1, 0⟩] := by
  unfold nextBlks
  rw [sevenTwice, freeBlks_sevenSt]
  decide

/-- **The list has the cluster of the new block twice**, as it had before. -/
theorem not_extends_sevenTwice : Mounted sevenArgs sevenTwice.dev ∧ Consistent sevenArgs sevenTwice ∧
    Live sevenTwice.fsTable 1 ∧ tableClrs sevenArgs sevenTwice 1 = some [1, 2, 2] ∧
    1 ≤ (freeBlks sevenArgs (tab sevenArgs sevenTwice.dev)).length ∧ ¬ ExtendsBy sevenArgs sevenTwice 1 1 := by
  have hm : Mounted sevenArgs sevenTwice.dev := mounted_sevenSt _ _ _ _
  have hc := consistent_sevenTwice
  have hlive := (live_sevenTwice (f := 1) (by decide)).mpr rfl
  have htbl := stored_sevenTwice.tableClrs hm (by decide)
  have hfree : 1 ≤ (freeBlks sevenArgs (tab sevenArgs sevenTwice.dev)).length := by
    rw [sevenTwice, freeBlks_sevenSt]
    decide
  have hgrown : grownClrs sevenArgs sevenTwice.dev [1, 2, 2] 1 = [1, 2, 2] := by
    unfold grownClrs
    rw [nextBlks_sevenTwice]
    decide
  have hcap : (grownClrs sevenArgs sevenTwice.dev [1, 2, 2] 1).length ≤ 13 + secCap sevenArgs := by
    rw [hgrown]
    exact stored_sevenTwice.cap
  refine ⟨hm, hc, hlive, htbl, hfree, ?_⟩
  rintro ⟨l, t, new, s', hseq, hext, hnote⟩
  obtain ⟨l', t', new', u, hseq', hext', hcids, hstored⟩ := listExtended_of_space hm
    (by rw [cluCnt_sevenArgs]; decide) hc hlive (by decide) ⟨stored_sevenTwice, Or.inl (by decide)⟩ (le_refl 1)
    ⟨hfree, fun _ hlong => by rw [hgrown] at hlong; exact absurd hlong (by decide)⟩
  obtain ⟨rfl, rfl⟩ := Prod.mk.inj (Option.some.inj (hseq.symm.trans hseq'))
  obtain ⟨-, hrest⟩ := Prod.mk.inj (Option.some.inj (hext.result.symm.trans hext'.result))
  obtain ⟨hl, rfl⟩ := Prod.mk.inj hrest
  obtain rfl := List.append_cancel_left hl
  obtain ⟨cl, hcl, hone⟩ := hnote _ htbl hcap
  rw [(hstored hcap).1, hgrown] at hcl
  obtain rfl := Option.some.inj hcl
  have hin : (2 : ℤ) ∈ new.map BlkInfo.cid := by
    rw [hcids, nextBlks_sevenTwice]
    decide
  obtain ⟨b, hb, hcid⟩ := List.mem_map.mp hin
  have htwice := hone b hb
  rw [hcid] at htwice
  exact absurd htwice (by decide)

/-- The volume with a stored count of `2^31`: 28 blocks are free, no array has to be started, and the
number of clusters is below the bound of `dev_tbl_clrs_add`, but the list is not extended. -/
theorem not_extends_sevenWrapped : Mounted sevenArgs sevenWrapped.dev ∧
    Consistent sevenArgs sevenWrapped ∧ Live sevenWrapped.fsTable 1 ∧
    1 ≤ (freeBlks sevenArgs (tab sevenArgs sevenWrapped.dev)).length ∧
    secAddr sevenWrapped.fsTable 1 ≠ 0 ∧
    (∃ n, storedCnt sevenArgs sevenWrapped 1 = some n ∧ n + 1 < s1Len sevenArgs) ∧
    ¬ ExtendsBy sevenArgs sevenWrapped 1 1 := by
  have hm := mounted_sevenSt wrappedTab wrappedData 96 (rootAnd wrappedEntry)
  have hc := consistent_sevenWrapped
  have hlive := (live_sevenWrapped (f := 1) (by decide)).mpr rfl
  obtain ⟨t, hop⟩ := lookup_sevenWrapped
  have hfree : (freeBlks sevenArgs (tab sevenArgs sevenWrapped.dev)).length = 28 := by
    rw [sevenWrapped, freeBlks_sevenSt]
    decide
  have hblks := devFreeBlocks_eq hm hc.agree (le_refl 1)
    (by show 1 ≤ (freeBlks sevenArgs (tab sevenArgs sevenWrapped.dev)).length; rw [hfree]; decide)
  obtain ⟨c, hext⟩ := extd_of_storedCnt_neg (hc.cntAgrees (Or.inr hlive)) (by decide) hop
    (show cint (13 + 2 ^ 31 : ℕ) < 0 by decide) storedCnt_sevenWrapped hblks
  refine ⟨hm, hc, hlive, by rw [hfree]; decide, by decide, ⟨_, storedCnt_sevenWrapped, ?_⟩, ?_⟩
  · unfold s1Len
    rw [lblkSz_sevenArgs]
    decide
  · rintro ⟨l, t', new, s', hop', hres, -⟩
    obtain ⟨rfl, rfl⟩ := Prod.mk.inj (Option.some.inj (hop'.symm.trans hop))
    have hfail := (Prod.mk.inj (Option.some.inj (hext.symm.trans hres.result))).1
    omega

/-- **Two consistent volumes with free blocks on which the list of file 1 is not extended as it should be**:
one lists a cluster twice, on the other the number of clusters is negative. -/
theorem not_extends_consistent :
    (Mounted sevenArgs sevenTwice.dev ∧ Consistent sevenArgs sevenTwice ∧ Live sevenTwice.fsTable 1 ∧
      tableClrs sevenArgs sevenTwice 1 = some [1, 2, 2] ∧
      1 ≤ (freeBlks sevenArgs (tab sevenArgs sevenTwice.dev)).length ∧ ¬ ExtendsBy sevenArgs sevenTwice 1 1) ∧
    Mounted sevenArgs sevenWrapped.dev ∧ Consistent sevenArgs sevenWrapped ∧ Live sevenWrapped.fsTable 1 ∧
      1 ≤ (freeBlks sevenArgs (tab sevenArgs sevenWrapped.dev)).length ∧ secAddr sevenWrapped.fsTable 1 ≠ 0 ∧
      (∃ n, storedCnt sevenArgs sevenWrapped 1 = some n ∧ n + 1 < s1Len sevenArgs) ∧
      ¬ ExtendsBy sevenArgs sevenWrapped 1 1 :=
  ⟨not_extends_sevenTwice, not_extends_sevenWrapped⟩

end Fcfs.Vol
