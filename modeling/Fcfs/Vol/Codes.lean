import Fcfs.Vol.Codec
import Fcfs.Vol.Reported

/-! # Result codes of block writes

`dev_write_block` asks `fwrite` for a whole block and compares the count it gets with the length of
the data. So the result says whether the block was stored only for data of the length of a block, or
when the count is neither of the two lengths (`codes_iff`). The tables and headers its callers write
are shorter than a block: a write that succeeds is reported as failed. -/

namespace Fcfs.Vol

open Lib.Bytes

/-- How many of `len` bytes a later `fwrite` at `pos` stores, with `k` others before it. -/
def storedAfter (d : Dev) (k pos len : ℕ) : ℕ :=
  min (min len (d.size - pos)) ((d.short (d.writes + k)).getD len)

/-- **The count tells whether the block was stored**: the length compared with is that of a block,
or the count is neither. `k` other writes come before. -/
def CountTells (a : Args) (d : Dev) (k : ℕ) (cid : ℤ) (bid len : ℕ) : Prop :=
  len = a.lblkSz ∨ (storedAfter d k (blkAddr a cid bid) a.lblkSz ≠ a.lblkSz ∧
    storedAfter d k (blkAddr a cid bid) a.lblkSz ≠ len)

/-- The result is 0 exactly when every block handed over was stored whole. -/
def Truthful (s s' : St) (r : ℤ) : Prop := r = 0 ↔ Stores s s'

/-- **A truthful block write**: when the block was stored, it reads back padded with zeros, and the
others are as they were. -/
structure TruthfulWrite (a : Args) (s s' : St) (cid : ℤ) (bid : ℕ) (data : Buf) (len : ℕ)
    (crypt : Bool) (r : ℤ) : Prop where
  code : Truthful s s' r
  back : Stores s s' → devReadBlock a s'.dev cid bid crypt = some (cut len data)
  others : Stores s s' → ∀ c k, InVol a c k → ¬ (c = cid ∧ k = bid) → ∀ i < a.lblkSz,
    s'.dev.bytes (blkAddr a c k + i) = s.dev.bytes (blkAddr a c k + i)

section Codes
variable {a : Args} {s s' : St}

/-- A code that compares the count with `len` is truthful when the count tells. -/
theorem truthful_iff {k : ℕ} {cid : ℤ} {bid len : ℕ} {r : ℤ}
    (hr : r = if storedAfter s.dev k (blkAddr a cid bid) a.lblkSz = len then 0 else -1)
    (hs : Stores s s' ↔ storedAfter s.dev k (blkAddr a cid bid) a.lblkSz = a.lblkSz) :
    Truthful s s' r ↔ CountTells a s.dev k cid bid len := by
  have hzero : r = 0 ↔ storedAfter s.dev k (blkAddr a cid bid) a.lblkSz = len := by
    rw [hr]
    split_ifs with h
    · simp [h]
    · simp [h]
  unfold Truthful CountTells
  rw [hzero, hs]
  constructor
  · intro hiff
    by_cases hlen : len = a.lblkSz
    · exact Or.inl hlen
    · refine Or.inr ⟨fun hall => hlen ?_, fun hpart => hlen ?_⟩
      · exact (hiff.mpr hall).symm.trans hall
      · exact hpart.symm.trans (hiff.mp hpart)
  · rintro (rfl | ⟨hall, hpart⟩)
    · exact Iff.rfl
    · exact ⟨fun h => absurd h hpart, fun h => absurd h hall⟩

/-- A block is on the list of those lost unless it was stored whole. -/
theorem stores_blkWritten {cid : ℤ} {bid : ℕ} {b : Buf} (hd : s'.dev = blkWritten a s.dev cid bid b) :
    Stores s s' ↔ storedAfter s.dev 0 (blkAddr a cid bid) a.lblkSz = a.lblkSz := by
  have hst : storedAfter s.dev 0 (blkAddr a cid bid) a.lblkSz =
      s.dev.stored (blkAddr a cid bid) a.lblkSz := rfl
  unfold Stores
  rw [hd, hst]
  unfold blkWritten
  simp only
  split_ifs with h
  · simp [h]
  · simp [h]

/-! ### The wrappers -/

theorem updBitmap_total {cid : ℤ} (h0 : 0 ≤ cid) (bl : BlockList) (t : St) :
    ∃ u, updBitmap a t bl cid = some u ∧ u.dev.lost = t.dev.lost := by
  obtain ⟨ch, bm, hupd, -⟩ := devUpdBitmap_eq t.fsBitmap bl h0
  have hu : updBitmap a t bl cid = some _ := Option.bind_eq_some_iff.mpr ⟨_, hupd, rfl⟩
  exact ⟨_, hu, (updBitmap_stores hu).2.2⟩

theorem devTblClrsGet_cache {f cid : ℤ} {i : ℕ} (h : devTblClrsGet a s f i = some (cid, s')) :
    ∃ c, s' = { s with clrsCache := c } := by
  unfold devTblClrsGet clrsLoad at h
  obtain ⟨t, ht, h⟩ := Option.bind_eq_some_iff.mp h
  obtain ⟨-, rfl⟩ := Prod.mk.inj (Option.some.inj h)
  split_ifs at ht
  · obtain ⟨⟨n, u⟩, hcnt, rfl⟩ := Option.map_eq_some_iff.mp ht
    obtain ⟨c, rfl, -⟩ := devTblClrsCnt_frame hcnt
    exact ⟨c, rfl⟩
  · exact ⟨s.clrsCache, (Option.some.inj ht).symm⟩

theorem truthful_congr {u : St} {r : ℤ} (h : u.dev.lost = s'.dev.lost) :
    Truthful s u r ↔ Truthful s s' r := by
  unfold Truthful Stores
  rw [h]

/-- The table of a cluster with a freed block: its bit is cleared, which takes a write if it was
set. -/
theorem updBitmap_freed {cid : ℤ} (h0 : 0 ≤ cid) {bl : BlockList} (hfree : taken bl.entrs = false)
    (t : St) : ∃ d bm, updBitmap a t bl cid = some { t with dev := d, fsBitmap := bm } ∧
      d.lost = t.dev.lost ∧ ∀ pos len, d.stored pos len =
        storedAfter t.dev (if full t.fsBitmap cid then 1 else 0) pos len := by
  have hbit : (bitOf (t.fsBitmap (cid.toNat / 8)) (cid.toNat % 8) == 1) = full t.fsBitmap cid :=
    (full_of_nonneg _ h0).symm
  unfold updBitmap devUpdBitmap
  simp only [if_neg (not_lt.mpr h0), any_free_eq, hbit, hfree]
  cases full t.fsBitmap cid with
  | true => exact ⟨_, _, rfl, rfl, fun _ _ => rfl⟩
  | false => exact ⟨_, _, rfl, rfl, fun _ _ => rfl⟩

theorem delClrLoop_cache {f cid : ℤ} (n : ℕ) : ∀ (i : ℕ) (t : St), t.clrsCache.fid = f →
    ∃ c, delClrLoop a f cid n i t = some { t with clrsCache := c } := by
  induction n with
  | zero => exact fun i t _ => ⟨t.clrsCache, rfl⟩
  | succ n ih =>
    intro i t hfid
    obtain ⟨c, hset, hc⟩ : ∃ c,
        (if clrsAt a t.clrsCache i = cid then (devTblClrsSet a t i 0).2 else t) =
        { t with clrsCache := c } ∧ c.fid = f := by
      unfold devTblClrsSet
      dsimp only
      split_ifs <;> exact ⟨_, rfl, hfid⟩
    obtain ⟨c', hloop⟩ := ih (i + 1) { t with clrsCache := c } hc
    refine ⟨c', Option.bind_eq_some_iff.mpr ⟨_, devTblClrsGet_of_fid hfid i, ?_⟩⟩
    dsimp only
    rw [hset]
    exact hloop

/-- What `dev_del_block` does behind the write of the table loses no block. -/
theorem freeClrs_total {f : ℤ} (cid : ℤ) (bLen n : ℕ) (res : ℤ) {t : St} (hfid : t.clrsCache.fid = f) :
    ∃ u, (if bLen = 1 then
        (delClrLoop a f cid n 0 t).bind fun s => some (res, (devWriteTable a s).2)
      else some (res, t)) = some (res, u) ∧ u.dev.lost = t.dev.lost := by
  split_ifs
  · obtain ⟨c, hloop⟩ : ∃ c, delClrLoop a f cid n 0 t = some { t with clrsCache := c } :=
      delClrLoop_cache n 0 t hfid
    exact ⟨_, Option.bind_eq_some_iff.mpr ⟨_, hloop, rfl⟩, rfl⟩
  · exact ⟨t, rfl, rfl⟩

section Exact
variable (hex : ExactPos a)
include hex

theorem devWriteBlock_code {cid : ℤ} {bid : ℕ} (hin : InVol a cid bid) (data : Buf) (len : ℕ)
    (crypt : Bool) : ∃ r s', devWriteBlock a s cid bid data len crypt = some (r, s') ∧
      s'.dev = blkWritten a s.dev cid bid (outBuf a data len crypt) ∧
      (Truthful s s' r ↔ CountTells a s.dev 0 cid bid len) :=
  ⟨_, _, devWriteBlock_exact hex hin s data len crypt, rfl, truthful_iff rfl (stores_blkWritten rfl)⟩

theorem devWriteBlock_truthful {cid : ℤ} {bid : ℕ} (hin : InVol a cid bid) (data : Buf) {len : ℕ}
    (hlen : len ≤ a.lblkSz) (crypt : Bool) :
    ∃ r s', devWriteBlock a s cid bid data len crypt = some (r, s') ∧
      (TruthfulWrite a s s' cid bid data len crypt r ↔ CountTells a s.dev 0 cid bid len) := by
  obtain ⟨r, s', hop, hd, hcode⟩ := devWriteBlock_code (s := s) hex hin data len crypt
  refine ⟨r, s', hop, ?_⟩
  rw [← hcode]
  refine ⟨TruthfulWrite.code, fun h => ⟨h, fun hst => ?_, fun _ c k hin' hne i hi => ?_⟩⟩
  · rw [hd]
    exact devReadBlock_written hex hin s.dev data hlen crypt ((stores_blkWritten hd).mp hst)
  · rw [hd]
    exact blkWritten_bytes hin s.dev _ hin' hne hi

theorem devWriteCtable_truthful {cid : ℤ} (hin : InVol a cid 0) (bl : BlockList) :
    ∃ r s', devWriteCtable a s cid bl = some (r, s') ∧
      (Truthful s s' r ↔ CountTells a s.dev 0 cid 0 sizeofBlockList) :=
  ⟨_, _, devWriteCtable_exact hex hin.1 hin.2.1 s bl, truthful_iff rfl (stores_blkWritten rfl)⟩

theorem devClustClaim_truthful {cid : ℤ} (hin : InVol a cid 0) {bl : BlockList}
    (hread : devReadCtable a s.dev cid = some bl) : ∃ r s', devClustClaim a s cid = some (r, s') ∧
      (Truthful s s' r ↔ CountTells a s.dev 0 cid 0 sizeofBlockList) := by
  obtain ⟨r, t, hw, htruth⟩ := devWriteCtable_truthful (s := s) hex hin { bl with entrs := claimed }
  obtain ⟨u, hu, hlost⟩ := updBitmap_total (a := a) hin.1 { bl with entrs := claimed } t
  refine ⟨r, u, ?_, ?_⟩
  · unfold devClustClaim
    refine Option.bind_eq_some_iff.mpr ⟨_, hread, ?_⟩
    refine Option.bind_eq_some_iff.mpr ⟨_, hw, ?_⟩
    exact Option.bind_eq_some_iff.mpr ⟨_, hu, rfl⟩
  · rw [truthful_congr hlost]
    exact htruth

theorem devInitFile_truthful {f cid : ℤ} {t : St} {bl : BlockList} {b : ℕ} {rest : List ℕ}
    (hget : devTblClrsGet a s f 0 = some (cid, t)) (hin : InVol a cid 0)
    (hread : devReadCtable a t.dev cid = some bl) (hblks : devGetBlocks bl f = b :: rest) :
    ∃ r s', devInitFile a s f = some (r, s') ∧
      (Truthful s s' r ↔ CountTells a s.dev 0 cid b sizeofFileHeader) := by
  obtain ⟨c, rfl⟩ := devTblClrsGet_cache hget
  have hmem : b ∈ devGetBlocks bl f := by simp [hblks]
  obtain ⟨i, rfl, -⟩ := mem_ownBids.mp (show b ∈ ownBids bl.entrs f from hmem)
  have hinb : InVol a cid (i.val + 1) := ⟨hin.1, hin.2.1, by unfold bloksPerCluster; omega⟩
  obtain ⟨r, s', hw, -, hcode⟩ := devWriteBlock_code (s := { s with clrsCache := c }) hex hinb
    (fun _ => 0) sizeofFileHeader true
  refine ⟨r, s', ?_, hcode⟩
  · unfold devInitFile
    refine Option.bind_eq_some_iff.mpr ⟨_, hget, ?_⟩
    refine Option.bind_eq_some_iff.mpr ⟨_, hread, ?_⟩
    simp only [hblks]
    exact hw

theorem devDelBlock_truthful {f cid n : ℤ} {t : St} {bl : BlockList} {bid : ℕ}
    (hcnt : devTblClrsCnt a s f = some (n, t)) (hin : InVol a cid 0)
    (hread : devReadCtable a s.dev cid = some bl) (h1 : 1 ≤ bid) (h7 : bid ≤ 7) :
    ∃ r s', devDelBlock a s f cid bid = some (r, s') ∧
      (Truthful s s' r ↔
        CountTells a s.dev (if full s.fsBitmap cid then 1 else 0) cid 0 sizeofBlockList) := by
  obtain ⟨c, rfl, hfid⟩ := devTblClrsCnt_frame hcnt
  have hfree : taken (bl.set bid 0 0).entrs = false := by
    refine decide_eq_false fun hall => hall ⟨bid - 1, by omega⟩ ?_
    rw [BlockList.set_entrs, if_pos (by simp only; omega)]
  obtain ⟨d, bm, hupd, hlost, hst⟩ := updBitmap_freed (a := a) hin.1 hfree { s with clrsCache := c }
  obtain ⟨u, hu⟩ : ∃ u : St, u = { s with clrsCache := c, dev := d, fsBitmap := bm } := ⟨_, rfl⟩
  obtain ⟨v, hv⟩ : ∃ v, v = (outBuf a (hashed a (bl.set bid 0 0)).bytes sizeofBlockList false) := ⟨_, rfl⟩
  obtain ⟨r, hr⟩ : ∃ r : ℤ,
      r = if u.dev.stored (blkAddr a cid 0) a.lblkSz = sizeofBlockList then 0 else -1 := ⟨_, rfl⟩
  have hw := devWriteCtable_exact hex hin.1 hin.2.1 u (bl.set bid 0 0)
  rw [← hv, ← hr] at hw
  obtain ⟨s', hrest, hlost'⟩ := freeClrs_total (a := a) (f := f) cid (devGetBlocks bl f).length
    (toSizeT n) r (t := { u with dev := blkWritten a u.dev cid 0 v }) (by rw [hu]; exact hfid)
  refine ⟨r, s', ?_, truthful_iff (k := if full s.fsBitmap cid then 1 else 0) ?_ ?_⟩
  · unfold devDelBlock
    refine Option.bind_eq_some_iff.mpr ⟨_, hcnt, Option.bind_eq_some_iff.mpr ⟨_, hread, ?_⟩⟩
    dsimp only
    rw [if_neg (by omega)]
    refine Option.bind_eq_some_iff.mpr ⟨_, hupd, ?_⟩
    subst hu
    exact Option.bind_eq_some_iff.mpr ⟨_, hw, hrest⟩
  · rw [hr, ← hst, hu]
  · unfold Stores
    rw [hlost', ← hst, hu]
    unfold blkWritten
    simp only
    split_ifs with h
    · simp [h, hlost]
    · simp [h, hlost]

end Exact

/-- **A result code is truthful exactly when the count tells.** -/
theorem codes_iff (hex : ExactPos a) (s : St) :
    (∀ cid bid data len crypt, InVol a cid bid → len ≤ a.lblkSz →
      ∃ r s', devWriteBlock a s cid bid data len crypt = some (r, s') ∧
        (TruthfulWrite a s s' cid bid data len crypt r ↔ CountTells a s.dev 0 cid bid len)) ∧
    (∀ cid bl, InVol a cid 0 → sizeofBlockList ≤ a.lblkSz → ∃ r s', devWriteCtable a s cid bl = some (r, s') ∧
      (Truthful s s' r ↔ CountTells a s.dev 0 cid 0 sizeofBlockList)) ∧
    (∀ cid bl, InVol a cid 0 → sizeofBlockList ≤ a.lblkSz → devReadCtable a s.dev cid = some bl →
      ∃ r s', devClustClaim a s cid = some (r, s') ∧
        (Truthful s s' r ↔ CountTells a s.dev 0 cid 0 sizeofBlockList)) ∧
    (∀ f cid t bl b rest, devTblClrsGet a s f 0 = some (cid, t) → InVol a cid 0 →
      sizeofFileHeader ≤ a.lblkSz → devReadCtable a t.dev cid = some bl → devGetBlocks bl f = b :: rest →
      ∃ r s', devInitFile a s f = some (r, s') ∧
        (Truthful s s' r ↔ CountTells a s.dev 0 cid b sizeofFileHeader)) ∧
    ∀ f cid bid n t bl, devTblClrsCnt a s f = some (n, t) → InVol a cid 0 →
      sizeofBlockList ≤ a.lblkSz → devReadCtable a s.dev cid = some bl → 1 ≤ bid → bid ≤ 7 →
      ∃ r s', devDelBlock a s f cid bid = some (r, s') ∧
        (Truthful s s' r ↔
          CountTells a s.dev (if full s.fsBitmap cid then 1 else 0) cid 0 sizeofBlockList) :=
  ⟨fun _ _ data _ crypt hin hlen => devWriteBlock_truthful hex hin data hlen crypt,
    fun _ bl hin _ => devWriteCtable_truthful hex hin bl,
    fun _ _ hin _ hread => devClustClaim_truthful hex hin hread,
    fun _ _ _ _ _ _ hget hin _ hread hblks => devInitFile_truthful hex hget hin hread hblks,
    fun _ _ _ _ _ _ hcnt hin _ hread h1 h7 => devDelBlock_truthful hex hcnt hin hread h1 h7⟩

end Codes

/-! ### A healthy device -/

/-- A file header that is stored is reported as not stored. -/
theorem not_truthful_of_header : ¬ ∀ (a : Args) (s : St) (cid : ℤ) (bid : ℕ) (data : Buf) (len : ℕ)
    (crypt : Bool), ExactPos a → InVol a cid bid → len ≤ a.lblkSz →
    ∃ r s', devWriteBlock a s cid bid data len crypt = some (r, s') ∧
      TruthfulWrite a s s' cid bid data len crypt r := by
  intro h
  have hin : InVol sevenArgs 1 1 := ⟨by simp, by simp [cluCnt_sevenArgs], by simp [bloksPerCluster]⟩
  obtain ⟨r, s', hop, htruth⟩ := h sevenArgs sevenFresh 1 1 (fun _ => 0) sizeofFileHeader true
    mounted_sevenFresh.exactPos hin (by simp [lblkSz_sevenArgs, sizeofFileHeader])
  rw [Mounted.devWriteBlock_eq mounted_sevenFresh hin, if_neg (by
    rw [lblkSz_sevenArgs]
    simp [sizeofFileHeader])] at hop
  obtain ⟨rfl, rfl⟩ := Prod.mk.inj (Option.some.inj hop)
  exact absurd (htruth.code.mpr rfl) (by simp)

/-- A whole block that is stored is reported as stored. -/
theorem truthful_whole : ∃ r s', devWriteBlock sevenArgs sevenFresh 1 1 (fun _ => 7) 1024 true = some (r, s') ∧
    TruthfulWrite sevenArgs sevenFresh s' 1 1 (fun _ => 7) 1024 true r := by
  obtain ⟨r, s', hop, hiff⟩ := (codes_iff mounted_sevenFresh.exactPos sevenFresh).1 1 1 (fun _ => 7) 1024 true
    ⟨by simp, by simp [cluCnt_sevenArgs], by simp [bloksPerCluster]⟩ (by simp [lblkSz_sevenArgs])
  exact ⟨r, s', hop, hiff.mpr (Or.inl lblkSz_sevenArgs.symm)⟩

end Fcfs.Vol
