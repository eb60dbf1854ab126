import Fcfs.Vol.Consistent

/-! # Writes that run out of space

A write that needs more blocks than there are should fail and leave everything as it was
(`FailsAtomically`). It does so in one situation only: the cluster list stored for the file counts
so many clusters that the count is negative as an `int`, and the block list of the file is cached
already (`failsAtomically_iff`). In every other the
allocator goes on with the cluster number -1 and then with the root's cluster, `dev_file_reserve`
succeeds, and the file's cached list has grown. -/

namespace Fcfs.Vol

open Lib.Bytes

/-! ### What a write leaves as it was -/

section Frame
variable {a : Args} {s s' : St}

theorem devWriteBlock_frame {cid r : ℤ} {bid len : ℕ} {b : Buf} {crypt : Bool}
    (h : devWriteBlock a s cid bid b len crypt = some (r, s')) : s' = { s with dev := s'.dev } := by
  unfold devWriteBlock at h
  by_cases hpos : blockPos a cid bid < 0
  · rw [if_pos hpos] at h
    cases h
  · rw [if_neg hpos] at h
    obtain ⟨-, rfl⟩ := Prod.mk.inj (Option.some.inj h)
    rfl

theorem devWriteById_frame {id r seqSz : ℤ} {buf : Buf} {l : List BlkInfo}
    (h : devWriteById a s id buf l seqSz = some (r, s')) : s' = { s with dev := s'.dev } := by
  unfold devWriteById at h
  obtain ⟨o, -, h⟩ := Option.bind_eq_some_iff.mp h
  cases o with
  | none =>
    obtain ⟨-, rfl⟩ := Prod.mk.inj (Option.some.inj h)
    rfl
  | some b =>
    obtain ⟨⟨r', t⟩, hw, h⟩ := Option.bind_eq_some_iff.mp h
    obtain ⟨-, rfl⟩ := Prod.mk.inj (Option.some.inj h)
    exact devWriteBlock_frame hw

theorem writeLoop_frame {tmp : Buf} {l : List BlkInfo} {seqSz blkNum : ℤ} : ∀ {n i : ℕ} {s : St}
    {ok : Bool}, writeLoop a tmp l seqSz blkNum n i s = some (ok, s') → s' = { s with dev := s'.dev }
  | 0, i, s, ok, h => by
    unfold writeLoop at h
    obtain ⟨-, rfl⟩ := Prod.mk.inj (Option.some.inj h)
    rfl
  | n + 1, i, s, ok, h => by
    unfold writeLoop at h
    obtain ⟨⟨r, t⟩, hw, h⟩ := Option.bind_eq_some_iff.mp h
    have hst := devWriteById_frame hw
    dsimp only at h
    split_ifs at h
    · obtain ⟨-, rfl⟩ := Prod.mk.inj (Option.some.inj h)
      exact hst
    · have hts := writeLoop_frame h
      rw [hst] at hts
      exact hts

theorem devFileSize_frame {f r : ℤ} {l : List BlkInfo} (hl : s.mapSeq f = some l)
    (h : devFileSize a s f = some (r, s')) : s' = s := by
  unfold devFileSize at h
  obtain ⟨⟨inf, t⟩, hseq, h⟩ := Option.bind_eq_some_iff.mp h
  rw [devGetFileSeq_cached hl] at hseq
  obtain ⟨rfl, rfl⟩ := Prod.mk.inj (Option.some.inj hseq)
  obtain ⟨o, -, h⟩ := Option.bind_eq_some_iff.mp h
  cases o with
  | none => exact (Prod.mk.inj (Option.some.inj h)).2.symm
  | some buf => exact (Prod.mk.inj (Option.some.inj h)).2.symm

theorem devSetFileSize_frame {f r size : ℤ} {l : List BlkInfo} (hl : s.mapSeq f = some l)
    (h : devSetFileSize a s f size = some (r, s')) : s' = { s with dev := s'.dev } := by
  unfold devSetFileSize at h
  obtain ⟨⟨inf, t⟩, hseq, h⟩ := Option.bind_eq_some_iff.mp h
  rw [devGetFileSeq_cached hl] at hseq
  obtain ⟨rfl, rfl⟩ := Prod.mk.inj (Option.some.inj hseq)
  obtain ⟨o, -, h⟩ := Option.bind_eq_some_iff.mp h
  cases o with
  | none =>
    obtain ⟨-, rfl⟩ := Prod.mk.inj (Option.some.inj h)
    rfl
  | some buf => exact devWriteById_frame h

end Frame

/-! ### Growing -/

section Grow
variable {a : Args} {s s' : St} {f : ℤ}

theorem freeBlocksLoop_length {d : Dev} {bm : ℕ → UInt8} {count : ℕ} : ∀ {n : ℕ} {old : ℤ}
    {acc l : List BlkInfo}, acc.length ≤ count → freeBlocksLoop a d bm count n old acc = some l →
      l.length = count
  | 0, old, acc, l, hacc, h => by
    unfold freeBlocksLoop at h
    split_ifs at h
    obtain rfl := Option.some.inj h
    omega
  | n + 1, old, acc, l, hacc, h => by
    unfold freeBlocksLoop at h
    split_ifs at h
    · obtain ⟨bl, -, h⟩ := Option.bind_eq_some_iff.mp h
      refine freeBlocksLoop_length ?_ h
      rw [List.length_append, List.length_map, List.length_take]
      omega
    · obtain rfl := Option.some.inj h
      omega

theorem reserveLoop_length (n : ℕ) : ∀ {inf inf' : List BlkInfo} {lastNum : ℤ} {s s' : St},
    reserveLoop a f inf n lastNum s = some (inf', s') → inf'.length = inf.length := by
  induction n with
  | zero =>
    intro inf inf' lastNum s s' h
    unfold reserveLoop at h
    rw [(Prod.mk.inj (Option.some.inj h)).1]
  | succ n ih =>
    intro inf inf' lastNum s s' h
    cases inf with
    | nil => simp [reserveLoop] at h
    | cons b inf =>
      unfold reserveLoop at h
      obtain ⟨bl, -, h⟩ := Option.bind_eq_some_iff.mp h
      dsimp only at h
      split_ifs at h
      obtain ⟨⟨r, t⟩, -, h⟩ := Option.bind_eq_some_iff.mp h
      obtain ⟨u, -, h⟩ := Option.bind_eq_some_iff.mp h
      obtain ⟨⟨inf'', v⟩, hrec, h⟩ := Option.bind_eq_some_iff.mp h
      obtain ⟨rfl, -⟩ := Prod.mk.inj (Option.some.inj h)
      rw [List.length_cons, List.length_cons, ih hrec]

/-- **Growing fails for one reason only**: the number of clusters is negative. Otherwise the cached
list gets longer by what it should. -/
theorem devExtdBlkList_cases {l l' : List BlkInfo} {count : ℕ} {z : ℤ} (hf : f ≠ 0)
    (hcount : 1 ≤ count) (h : devExtdBlkList a s l l.length count f = some (z, l', s')) :
    (∃ n, devTblClrsCnt a s f = some (n, s') ∧ n < 0 ∧ z = -1 ∧ l' = l) ∨
    ∃ n t blks, devTblClrsCnt a s f = some (n, t) ∧ 0 ≤ n ∧ z = l.length + count ∧
      blks.length = count ∧ l' = l ++ blks ∧ s'.mapSeq f = some (l ++ blks) := by
  unfold devExtdBlkList at h
  obtain ⟨⟨blks, m⟩, hfree, h⟩ := Option.bind_eq_some_iff.mp h
  obtain ⟨⟨res, blks', t⟩, hres, h⟩ := Option.bind_eq_some_iff.mp h
  have hlen : blks.length = count ∧ m = count := by
    unfold devFreeBlocks at hfree
    obtain ⟨l0, hloop, hfree⟩ := Option.bind_eq_some_iff.mp hfree
    rw [if_neg (by omega)] at hfree
    obtain ⟨rfl, rfl⟩ := Prod.mk.inj (Option.some.inj hfree)
    exact ⟨freeBlocksLoop_length (Nat.zero_le _) hloop, freeBlocksLoop_length (Nat.zero_le _) hloop⟩
  unfold devFileReserve at hres
  rw [if_neg hf] at hres
  obtain ⟨⟨n, t'⟩, hcnt, hres⟩ := Option.bind_eq_some_iff.mp hres
  dsimp only at hres h
  by_cases hn : n < 0
  · rw [if_pos hn] at hres
    obtain ⟨hr, hres⟩ := Prod.mk.inj (Option.some.inj hres)
    obtain ⟨-, ht⟩ := Prod.mk.inj hres
    rw [if_pos (by omega)] at h
    obtain ⟨hz, h⟩ := Prod.mk.inj (Option.some.inj h)
    obtain ⟨hl, hs⟩ := Prod.mk.inj h
    exact Or.inl ⟨n, by rw [hcnt, ht, hs], hn, hz.symm, hl.symm⟩
  · rw [if_neg hn] at hres
    obtain ⟨⟨blks'', u⟩, hloop, hres⟩ := Option.bind_eq_some_iff.mp hres
    obtain ⟨v, -, hres⟩ := Option.bind_eq_some_iff.mp hres
    obtain ⟨hr, hres⟩ := Prod.mk.inj (Option.some.inj hres)
    have hb : blks'' = blks' := (Prod.mk.inj hres).1
    rw [if_neg (by omega)] at h
    obtain ⟨hz, h⟩ := Prod.mk.inj (Option.some.inj h)
    obtain ⟨hl, rfl⟩ := Prod.mk.inj h
    have hlen' := reserveLoop_length _ hloop
    rw [hb] at hlen'
    exact Or.inr ⟨n, t', blks', hcnt, by omega, by omega, by omega, hl.symm, Function.update_self _ _ _⟩

/-- The blocks a write wants the file to have. -/
def writeNeed (a : Args) (size offset : ℕ) : ℤ :=
  ((offset + 4 : ℕ) : ℤ) / a.lblkSz +
    toBlkCnt (cint (((offset + 4) % a.lblkSz + size : ℕ))) a.lblkSz

/-- A write looks the list up and grows it; what comes after changes the device only. -/
theorem opsWrite_cases {path : Path} {data : Buf} {size offset : ℕ} {r : ℤ} (hf : f ≠ 0)
    (h : opsWrite a s path data size offset f = some (r, s')) :
    ∃ l t z l' u, devGetFileSeq a s f = some (l, t) ∧
      growTo a t l (writeNeed a size offset) f = some (z, l', u) ∧
      (u.mapSeq f = some l' → s' = { u with dev := s'.dev }) := by
  unfold opsWrite at h
  obtain ⟨⟨f', s0⟩, hfid, h⟩ := Option.bind_eq_some_iff.mp h
  rw [writeFid, if_neg hf] at hfid
  obtain ⟨rfl, rfl⟩ := Prod.mk.inj (Option.some.inj hfid)
  obtain ⟨⟨l, t⟩, hseq, h⟩ := Option.bind_eq_some_iff.mp h
  obtain ⟨⟨z, l', u⟩, hgrow, h⟩ := Option.bind_eq_some_iff.mp h
  refine ⟨l, t, z, l', u, hseq, hgrow, fun hl => ?_⟩
  dsimp only at h
  split_ifs at h
  · obtain ⟨-, rfl⟩ := Prod.mk.inj (Option.some.inj h)
    rfl
  · obtain ⟨o, -, h⟩ := Option.bind_eq_some_iff.mp h
    cases o with
    | none =>
      obtain ⟨-, rfl⟩ := Prod.mk.inj (Option.some.inj h)
      rfl
    | some tmp =>
      obtain ⟨⟨ok, v⟩, hloop, h⟩ := Option.bind_eq_some_iff.mp h
      have hv := writeLoop_frame hloop
      have hlv : v.mapSeq f = some l' := by rw [hv]; exact hl
      dsimp only at h
      split_ifs at h
      · obtain ⟨⟨sz, w⟩, hsize, h⟩ := Option.bind_eq_some_iff.mp h
        obtain ⟨⟨r', x⟩, hset, h⟩ := Option.bind_eq_some_iff.mp h
        have hw : w = v := devFileSize_frame hlv hsize
        have hx := devSetFileSize_frame (show w.mapSeq f = some l' by rw [hw]; exact hlv) hset
        rw [hw, hv] at hx
        rw [← (Prod.mk.inj (Option.some.inj h)).2]
        exact hx
      · obtain ⟨-, rfl⟩ := Prod.mk.inj (Option.some.inj h)
        exact hv

end Grow

/-! ### The number of clusters -/

/-- The direct slots in use. -/
def dirCnt (t : FcfsTable) (f : ℤ) : ℕ := (loadFirLoop f (t.entrs f).clrs 13 0 fun _ => 0).1

theorem loadFirLoop_cnt (f : ℤ) (clrs : ℕ → UInt16) (n : ℕ) : ∀ (count : ℕ) (s0 s0' : ℕ → UInt32),
    (loadFirLoop f clrs n count s0).1 = (loadFirLoop f clrs n count s0').1 := by
  induction n with
  | zero => intro count s0 s0'; rfl
  | succ n ih =>
    intro count s0 s0'
    unfold loadFirLoop
    split_ifs
    · rfl
    · rfl
    · exact ih _ _ _

/-- The number of words in the second-level array, 0 without one. -/
def secCnt (a : Args) (s : St) (f : ℤ) : Option ℕ :=
  if (s.fsTable.entrs f).clrs 13 = 0 then some 0
  else (devTblLoadSec a s.dev (secAddr s.fsTable f)).map Prod.fst

/-- **The number of clusters that is stored for a file**, as an `int`. -/
def storedCnt (a : Args) (s : St) (f : ℤ) : Option ℤ :=
  (secCnt a s f).map fun n => cint (dirCnt s.fsTable f + n : ℕ)

/-- The counts in a cluster-list cache, as far as it has any of the file. -/
structure CntAgrees (a : Args) (s : St) (f : ℤ) (c : ClrsCache) : Prop where
  dir : c.fid = f → c.s0Cnt ≠ 0 → c.s0Cnt = dirCnt s.fsTable f
  sec : c.fid = f → c.s1Cnt ≠ 0 → secCnt a s f = some c.s1Cnt

section Cnt
variable {a : Args} {s : St} {f : ℤ}

theorem Consistent.cntAgrees (hc : Consistent a s) (hf : f = 0 ∨ Live s.fsTable f) :
    CntAgrees a s f s.clrsCache := by
  refine ⟨fun hfid h0 => ?_, fun hfid h1 => ?_⟩
  · subst hfid
    exact (hc.cache.dir hf h0).1.trans (loadFirLoop_cnt _ _ _ _ _ _)
  · subst hfid
    obtain ⟨hne, w, hsec, -⟩ := hc.cache.sec hf h1
    unfold secCnt
    rw [if_neg fun hz => hne (by unfold secAddr; rw [hz]; rfl), hsec]
    rfl

/-- **`dev_tbl_clrs_cnt` returns the stored number**, and the cache has it afterwards. -/
theorem devTblClrsCnt_stored (h : CntAgrees a s f s.clrsCache) :
    (devTblClrsCnt a s f).map Prod.fst = storedCnt a s f ∧
      ∀ n u, devTblClrsCnt a s f = some (n, u) → CntAgrees a s f u.clrsCache := by
  obtain ⟨c0, hc0, hfid0, h0⟩ : ∃ c, c = (if s.clrsCache.fid ≠ f then tblClrsReinit s.clrsCache f
      else s.clrsCache) ∧ c.fid = f ∧ CntAgrees a s f c := by
    refine ⟨_, rfl, ?_, ?_⟩
    · split_ifs with hne
      · rfl
      · exact not_not.mp hne
    · split_ifs with hne
      · exact ⟨fun _ h => absurd rfl h, fun _ h => absurd rfl h⟩
      · exact h
  obtain ⟨c1, hc1, hfid1, hs0, hs1⟩ : ∃ c, c = clrsStage0 s f c0 ∧ c.fid = f ∧
      c.s0Cnt = dirCnt s.fsTable f ∧ (c.s1Cnt ≠ 0 → secCnt a s f = some c.s1Cnt) := by
    refine ⟨_, rfl, ?_, ?_, ?_⟩ <;> unfold clrsStage0 <;> split_ifs with hz
    · exact hfid0
    · exact hfid0
    · exact loadFirLoop_cnt _ _ _ _ _ _
    · exact h0.dir hfid0 hz
    · exact h0.sec hfid0
    · exact h0.sec hfid0
  have hstage : clrsStage1 a s.dev ((s.fsTable.entrs f).clrs 13) c1 = none ∧ secCnt a s f = none ∨
      ∃ c, clrsStage1 a s.dev ((s.fsTable.entrs f).clrs 13) c1 = some c ∧ c.s0Cnt = c1.s0Cnt ∧
        secCnt a s f = some c.s1Cnt := by
    unfold clrsStage1
    by_cases h1 : c1.s1Cnt = 0
    · by_cases hslot : (s.fsTable.entrs f).clrs 13 = 0
      · rw [if_neg fun hn => hn.1 hslot]
        exact Or.inr ⟨c1, rfl, rfl, by rw [h1, secCnt, if_pos hslot]⟩
      · rw [if_pos ⟨hslot, h1⟩, secCnt, if_neg hslot]
        unfold secAddr
        cases devTblLoadSec a s.dev ((s.fsTable.entrs f).clrs 13).toNat with
        | none => exact Or.inl ⟨rfl, rfl⟩
        | some r => exact Or.inr ⟨_, rfl, rfl, rfl⟩
    · rw [if_neg fun hn => h1 hn.2]
      exact Or.inr ⟨c1, rfl, rfl, hs1 h1⟩
  unfold devTblClrsCnt
  rw [← hc0]
  dsimp only
  rw [← hc1]
  unfold storedCnt
  rcases hstage with ⟨hnone, hsec⟩ | ⟨c, hsome, hcs, hsec⟩
  · rw [hnone, hsec]
    exact ⟨rfl, fun n u hu => by cases hu⟩
  · rw [hsome, hsec]
    refine ⟨?_, fun n u hu => ?_⟩
    · simp only [Option.bind_eq_bind, Option.bind_some, Option.map_some]
      rw [hcs, hs0]
    · obtain ⟨-, rfl⟩ := Prod.mk.inj (Option.some.inj hu)
      exact ⟨fun _ _ => hcs.trans hs0, fun _ _ => hsec⟩

/-- **A list that can be read back** is counted right. -/
theorem storedCnt_of_stored {cl : List ℤ} (hm : Mounted a s.dev) (hf : f ≠ 0)
    (hst : Stored a s.dev s.fsTable f cl) : storedCnt a s f = some (cl.length : ℤ) := by
  -- the number does not depend on the cache, so take an empty one
  have hcnt := (devTblClrsCnt_stored (a := a) (f := f)
    (s := { s with clrsCache := ⟨f, fun _ => 0, fun _ => 0, 0, 0⟩ })
    ⟨fun _ h => absurd rfl h, fun _ h => absurd rfl h⟩).1
  obtain ⟨c, hop, -⟩ := devTblClrsCnt_eq (s := { s with clrsCache := ⟨f, fun _ => 0, fun _ => 0, 0, 0⟩ })
    hm hf hst ⟨fun _ h => absurd rfl h, fun _ h => absurd rfl h⟩
  rw [hop] at hcnt
  exact hcnt.symm

theorem storedCnt_of_seq {l : List BlkInfo} {t : St} (h : CntAgrees a s f s.clrsCache)
    (hseq : devGetFileSeq a s f = some (l, t)) :
    (devTblClrsCnt a t f).map Prod.fst = storedCnt a s f := by
  obtain ⟨c, rfl, ⟨-, rfl⟩ | ⟨-, n, hcnt⟩⟩ := devGetFileSeq_frame hseq
  · exact (devTblClrsCnt_stored (s := cacheSeqAdd s f l) ⟨h.dir, h.sec⟩).1
  · have hc := (devTblClrsCnt_stored h).2 n _ hcnt
    exact (devTblClrsCnt_stored (s := cacheSeqAdd { s with clrsCache := c } f l) ⟨hc.dir, hc.sec⟩).1

end Cnt

/-! ### The claim -/

/-- The clusters of the blocks the allocator hands out next. -/
def nextClrs (a : Args) (s : St) (count : ℕ) : List ℤ :=
  ((freeBlks a (tab a s.dev)).take count).map Prod.fst

/-- **There is no space for the file to grow to `need` blocks**: there are not enough free blocks
behind the root's cluster, or the new ones need a second-level array and no cluster is wholly free. -/
def OutOfSpace (a : Args) (s : St) (f : ℤ) (l : List BlkInfo) (need : ℤ) : Prop :=
  ((freeBlks a (tab a s.dev)).length : ℤ) < need - l.length ∨
    (l.length : ℤ) < need ∧ secAddr s.fsTable f = 0 ∧
      13 < ((nextClrs a s (need - l.length).toNat).foldl (noteClr a) (directClrs s.fsTable f)).length ∧
      ¬ Room a s.dev

/-- The volume, the bitmap, the file table and the cached block lists are as before. -/
structure Unchanged (s s' : St) : Prop where
  dev : s'.dev.bytes = s.dev.bytes
  bitmap : s'.fsBitmap = s.fsBitmap
  table : s'.fsTable = s.fsTable
  seqs : s'.mapSeq = s.mapSeq

/-- The write returns a negative value and has changed nothing. -/
def FailsAtomically (a : Args) (s : St) (path : Path) (data : Buf) (size offset : ℕ) (f : ℤ) : Prop :=
  ∃ r s', opsWrite a s path data size offset f = some (r, s') ∧ r < 0 ∧ Unchanged s s'

section Claim
variable {a : Args} {s : St} {f : ℤ} {l : List BlkInfo} {t : St} {path : Path} {data : Buf}
  {size offset : ℕ}

theorem OutOfSpace.lt {need : ℤ} (h : OutOfSpace a s f l need) : (l.length : ℤ) < need := by
  rcases h with h | h
  · omega
  · exact h.1

/-- A write that grows the file and fails atomically has failed for the negative number. -/
theorem storedCnt_neg_of_fails (hcnt : CntAgrees a s f s.clrsCache) (hf : f ≠ 0)
    (hseq : devGetFileSeq a s f = some (l, t)) (hlt : (l.length : ℤ) < writeNeed a size offset)
    (h : FailsAtomically a s path data size offset f) :
    (∃ n < 0, storedCnt a s f = some n) ∧ s.mapSeq f = some l ∧
      ∃ r, devFreeBlocks a s.dev s.fsBitmap (writeNeed a size offset - l.length).toNat = some r := by
  obtain ⟨r, s', hop, -, hun⟩ := h
  obtain ⟨l0, t0, z, l', u, hseq', hgrow, hrest⟩ := opsWrite_cases hf hop
  obtain ⟨rfl, rfl⟩ := Prod.mk.inj (Option.some.inj (hseq'.symm.trans hseq))
  have hval := storedCnt_of_seq hcnt hseq
  obtain ⟨c, ht, hcase⟩ := devGetFileSeq_frame hseq
  unfold growTo at hgrow
  rw [if_pos hlt] at hgrow
  have hfree : ∃ r, devFreeBlocks a s.dev s.fsBitmap (writeNeed a size offset - l0.length).toNat =
      some r := by
    have hext := hgrow
    unfold devExtdBlkList at hext
    obtain ⟨r, hr, -⟩ := Option.bind_eq_some_iff.mp hext
    rw [ht] at hr
    exact ⟨r, hr⟩
  -- the list that is cached in the end was cached before
  have hkeep : u.mapSeq f = some l' → s.mapSeq f = some l' := by
    intro hu
    rw [← hun.seqs, hrest hu]
    exact hu
  rcases devExtdBlkList_cases hf (by omega) hgrow with ⟨n, hn, hneg, -, hl'⟩ |
      ⟨n, v, blks, -, -, -, hblks, hl', hu⟩
  · rw [hn] at hval
    obtain ⟨c', hu, -⟩ := devTblClrsCnt_frame hn
    have hmap : u.mapSeq f = some l' := by
      rw [hu, ht, hl']
      exact Function.update_self _ _ _
    exact ⟨⟨n, hneg, hval.symm⟩, hl' ▸ hkeep hmap, hfree⟩
  · -- the list in the cache has grown
    have hs := hkeep (hl' ▸ hu)
    rw [devGetFileSeq_cached hs] at hseq
    have hlen := (Prod.mk.inj (Option.some.inj hseq)).1
    rw [hl'] at hlen
    have hcount := congrArg List.length hlen
    rw [List.length_append, hblks] at hcount
    omega

/-- For a negative number of clusters the list is not extended. -/
theorem extd_of_storedCnt_neg {count : ℕ} (hcnt : CntAgrees a s f s.clrsCache) (hf : f ≠ 0)
    (hseq : devGetFileSeq a s f = some (l, t)) {n : ℤ} (hneg : n < 0)
    (hn : storedCnt a s f = some n) {r : List BlkInfo × ℕ}
    (hfree : devFreeBlocks a s.dev s.fsBitmap count = some r) :
    ∃ c, devExtdBlkList a t l l.length count f = some (-1, l, { t with clrsCache := c }) := by
  obtain ⟨blks, m⟩ := r
  have hval := storedCnt_of_seq hcnt hseq
  rw [hn] at hval
  obtain ⟨⟨n', v⟩, hv, hn'⟩ := Option.map_eq_some_iff.mp hval
  obtain rfl : n' = n := hn'
  obtain ⟨c, ht, -⟩ := devGetFileSeq_frame hseq
  obtain ⟨c', hv', -⟩ := devTblClrsCnt_frame hv
  have hres : devFileReserve a t f blks m ((l.length : ℤ) - 1) = some (-1, blks, v) := by
    unfold devFileReserve
    rw [if_neg hf]
    refine Option.bind_eq_some_iff.mpr ⟨_, hv, ?_⟩
    exact if_pos hneg
  refine ⟨c', ?_⟩
  unfold devExtdBlkList
  rw [← hv']
  rw [ht] at hres ⊢
  exact Option.bind_eq_some_iff.mpr ⟨_, hfree, Option.bind_eq_some_iff.mpr ⟨_, hres, if_pos (by decide)⟩⟩

/-- A write that fails for the negative number fails atomically. -/
theorem fails_of_storedCnt_neg (hcnt : CntAgrees a s f s.clrsCache) (hf : f ≠ 0)
    (hseq : devGetFileSeq a s f = some (l, t)) (hlt : (l.length : ℤ) < writeNeed a size offset)
    {n : ℤ} (hneg : n < 0) (hn : storedCnt a s f = some n) {r : List BlkInfo × ℕ}
    (hfree : devFreeBlocks a s.dev s.fsBitmap (writeNeed a size offset - l.length).toNat = some r) :
    ∃ s', opsWrite a s path data size offset f = some (-1, s') ∧ s'.dev = s.dev ∧
      s'.fsBitmap = s.fsBitmap ∧ s'.fsTable = s.fsTable ∧
      s'.mapSeq = Function.update s.mapSeq f (some l) := by
  obtain ⟨c, hext⟩ := extd_of_storedCnt_neg hcnt hf hseq hneg hn hfree
  have hgrow : growTo a t l (writeNeed a size offset) f = some (-1, l, { t with clrsCache := c }) := by
    unfold growTo
    rw [if_pos hlt]
    exact hext
  obtain ⟨c', ht, -⟩ := devGetFileSeq_frame hseq
  refine ⟨{ t with clrsCache := c }, ?_, ?_⟩
  · unfold opsWrite writeFid
    rw [if_neg hf]
    refine Option.bind_eq_some_iff.mpr ⟨_, rfl, ?_⟩
    refine Option.bind_eq_some_iff.mpr ⟨_, hseq, ?_⟩
    exact Option.bind_eq_some_iff.mpr ⟨_, hgrow, if_pos (by decide)⟩
  · rw [ht]
    exact ⟨rfl, rfl, rfl, rfl⟩

/-- **When a write that runs out of space fails atomically**: exactly when the number of clusters
stored for the file is negative, its list is already cached, and the allocator comes to an end. -/
theorem failsAtomically_iff (hc : Consistent a s) (hlive : Live s.fsTable f) (hf : f ≠ 0)
    (hseq : devGetFileSeq a s f = some (l, t))
    (hout : OutOfSpace a s f l (writeNeed a size offset)) :
    FailsAtomically a s path data size offset f ↔
      (∃ n < 0, storedCnt a s f = some n) ∧ s.mapSeq f = some l ∧
        ∃ r, devFreeBlocks a s.dev s.fsBitmap (writeNeed a size offset - l.length).toNat = some r := by
  have hcnt := hc.cntAgrees (Or.inr hlive)
  constructor
  · exact storedCnt_neg_of_fails hcnt hf hseq hout.lt
  · rintro ⟨⟨n, hneg, hn⟩, hmap, r, hfree⟩
    obtain ⟨s', hop, hdev, hbm, htab, hseqs⟩ :=
      fails_of_storedCnt_neg hcnt hf hseq hout.lt hneg hn hfree
    refine ⟨-1, s', hop, by decide, by rw [hdev], hbm, htab, ?_⟩
    rw [hseqs, ← hmap, Function.update_eq_self]

/-- **A write to a file whose cluster list is in order never fails atomically.** -/
theorem not_failsAtomically (hm : Mounted a s.dev) (hc : Consistent a s) (hlive : Live s.fsTable f)
    (hf : f ≠ 0) {cl : List ℤ} (hst : Stored a s.dev s.fsTable f cl)
    (hseq : devGetFileSeq a s f = some (l, t))
    (hout : OutOfSpace a s f l (writeNeed a size offset)) :
    ¬ FailsAtomically a s path data size offset f := by
  intro h
  obtain ⟨⟨n, hneg, hn⟩, -⟩ := storedCnt_neg_of_fails (hc.cntAgrees (Or.inr hlive)) hf hseq hout.lt h
  rw [storedCnt_of_stored hm hf hst] at hn
  have := Option.some.inj hn
  omega

end Claim

/-! ### A full volume -/

/-- The cluster tables when one file has all blocks. -/
def fullTab (c : ℕ) (i : Fin 7) : BlkEnt :=
  if c = 0 then ⟨0, UInt32.ofNat i⟩ else ⟨1, UInt32.ofNat (7 * (c - 1) + i)⟩

/-- The table entry of that file. -/
def fullEntry (f : ℤ) : TableEntry :=
  if f = 1 then ⟨1, fun i => if i < 6 then UInt16.ofNat (i + 1) else 0⟩ else TableEntry.zero

/-- A volume of seven clusters whose blocks all belong to file 1. -/
def sevenFull : St := sevenSt fullTab (fun _ _ _ => 0) 126 (rootAnd fullEntry)

theorem live_sevenFull {f : ℤ} (hf : f ≠ 0) : Live sevenFull.fsTable f ↔ f = 1 := by
  constructor
  · intro h
    by_contra hne
    refine h.lnk ?_
    show (rootAnd fullEntry f).lnkCnt = 0
    rw [rootAnd, if_neg hf, fullEntry, if_neg hne]
    rfl
  · rintro rfl
    exact ⟨by decide, by decide, by decide⟩

theorem stored_sevenFull : Stored sevenArgs sevenFull.dev sevenFull.fsTable 1 [1, 2, 3, 4, 5, 6] := by
  refine ⟨⟨by decide, by rw [cluCnt_sevenArgs]; decide, ?_, by decide, fun h => absurd h (by decide)⟩, ?_,
    fun h => absurd h (by decide)⟩
  · unfold s1Len
    rw [lblkSz_sevenArgs]
    decide
  · unfold secCap
    rw [lblkSz_sevenArgs]
    decide

theorem file_sevenFull : ∃ t, devGetFileSeq sevenArgs sevenFull 1 =
      some (sortNodes (sevenNodes fullTab 1 [1, 2, 3, 4, 5, 6]), t) ∧
    FileSeq sevenArgs (tab sevenArgs sevenFull.dev) 1
      (sortNodes (sevenNodes fullTab 1 [1, 2, 3, 4, 5, 6])) := by
  obtain ⟨t, hop⟩ := lookup_sevenSt (T := fullTab) (by decide) stored_sevenFull (by decide)
  exact ⟨t, hop, fileSeq_sevenSt (sortNodes_perm _) stored_sevenFull.range (by decide) (by decide)
    (by decide) (by decide)⟩

theorem consistent_sevenFull : Consistent sevenArgs sevenFull := by
  refine consistent_sevenSt ⟨by decide, by decide⟩ (fun i => rfl) (by decide) (by decide)
    fun f hf hf0 => ?_
  obtain rfl := (live_sevenFull hf0).mp hf
  obtain ⟨t, hop, hfile⟩ := file_sevenFull
  refine ⟨_, t, hop, hfile, ⟨1, 1, 0⟩, ?_, rfl, ?_⟩
  · exact (sortNodes_perm _).mem_iff.mpr (by decide)
  · rw [(sortNodes_perm _).length_eq]
    decide

theorem outOfSpace_sevenFull : OutOfSpace sevenArgs sevenFull 1
    (sortNodes (sevenNodes fullTab 1 [1, 2, 3, 4, 5, 6])) (writeNeed sevenArgs 1 43008) := by
  have hfree : freeBlks sevenArgs (tab sevenArgs sevenFull.dev) = [] := by
    rw [sevenFull, freeBlks_sevenSt]
    decide
  refine Or.inl ?_
  rw [hfree, (sortNodes_perm _).length_eq]
  decide

/-- A write of one byte behind the last block of a full volume does not fail atomically. -/
theorem not_failsAtomically_sevenFull : Mounted sevenArgs sevenFull.dev ∧
    Consistent sevenArgs sevenFull ∧ Live sevenFull.fsTable 1 ∧
    (∃ l t, devGetFileSeq sevenArgs sevenFull 1 = some (l, t) ∧
      OutOfSpace sevenArgs sevenFull 1 l (writeNeed sevenArgs 1 43008)) ∧
    ¬ FailsAtomically sevenArgs sevenFull [] (fun _ => 0) 1 43008 1 := by
  have hlive := (live_sevenFull (f := 1) (by decide)).mpr rfl
  obtain ⟨t, hop, -⟩ := file_sevenFull
  exact ⟨mounted_sevenSt _ _ _ _, consistent_sevenFull, hlive, ⟨_, t, hop, outOfSpace_sevenFull⟩,
    not_failsAtomically (mounted_sevenSt _ _ _ _) consistent_sevenFull hlive (by decide)
      stored_sevenFull hop outOfSpace_sevenFull⟩

/-- The condition for a write to the full volume. -/
theorem failsAtomically_iff_sevenFull :
    FailsAtomically sevenArgs sevenFull [] (fun _ => 0) 1 43008 1 ↔
      (∃ n < 0, storedCnt sevenArgs sevenFull 1 = some n) ∧
        sevenFull.mapSeq 1 = some (sortNodes (sevenNodes fullTab 1 [1, 2, 3, 4, 5, 6])) ∧
        ∃ r, devFreeBlocks sevenArgs sevenFull.dev sevenFull.fsBitmap 1 = some r := by
  obtain ⟨t, hop, -⟩ := file_sevenFull
  have hiff : FailsAtomically sevenArgs sevenFull [] (fun _ => 0) 1 43008 1 ↔ _ :=
    failsAtomically_iff consistent_sevenFull ((live_sevenFull (f := 1) (by decide)).mpr rfl) (by decide)
      hop outOfSpace_sevenFull
  have hcount : (writeNeed sevenArgs 1 43008 -
      (sortNodes (sevenNodes fullTab 1 [1, 2, 3, 4, 5, 6])).length).toNat = 1 := by
    rw [(sortNodes_perm _).length_eq]
    decide
  rw [hcount] at hiff
  exact hiff

end Fcfs.Vol
