import Fcfs.Vol.Atomic
import Fcfs.Vol.Extend

/-! # Reading and writing a file

`ops_read` and `ops_write` against the contents of a file, which are its size in four bytes and then
its bytes. A read inside the file returns the bytes (`opsRead_eq`). A write that finds or makes the
blocks it needs puts the bytes into the contents and raises the size where it has to
(`opsWrite_eq`); all it does, it does on that file. -/

namespace Fcfs.Vol

open Lib.Bytes Lib.Paged

/-! ### Counting pages -/

/-- The pages that hold `n` bytes. -/
def pages (L n : ℕ) : ℕ := (n + (L - 1)) / L

theorem toBlkCnt_eq {L : ℕ} (hL : 0 < L) (n : ℕ) : toBlkCnt n L = pages L n := by
  have hdiv : -(n : ℤ) / L = -((n + (L - 1)) / L : ℤ) := by
    have hpos : (0 : ℤ) < L := by omega
    rw [Int.ediv_eq_iff_of_pos hpos]
    have h := Int.emod_add_mul_ediv ((n : ℤ) + (L - 1)) L
    have h0 := Int.emod_nonneg ((n : ℤ) + (L - 1)) (by omega : (L : ℤ) ≠ 0)
    have h1 := Int.emod_lt_of_pos ((n : ℤ) + (L - 1)) hpos
    constructor
    · rw [Int.neg_mul, Int.mul_comm]
      omega
    · rw [Int.neg_mul, Int.mul_comm]
      omega
  unfold toBlkCnt pages
  rw [hdiv, Int.neg_neg]
  push_cast
  rw [Nat.cast_sub (by omega)]
  rfl

theorem pages_le_iff {L n k : ℕ} (hL : 0 < L) : pages L n ≤ k ↔ n ≤ k * L := by
  unfold pages
  rw [← Nat.lt_succ_iff, Nat.div_lt_iff_lt_mul hL, Nat.succ_mul]
  omega

theorem le_pages_mul {L : ℕ} (hL : 0 < L) (n : ℕ) : n ≤ pages L n * L :=
  (pages_le_iff hL).mp (le_refl _)

theorem div_add_pages {L : ℕ} (hL : 0 < L) (p n : ℕ) :
    p / L + pages L (p % L + n) = pages L (p + n) := by
  have h := Nat.div_add_mod p L
  have heq : p + n + (L - 1) = L * (p / L) + (p % L + n + (L - 1)) := by omega
  unfold pages
  rw [heq, Nat.mul_add_div hL]

/-! ### The size header -/

/-- The size in the header. -/
def fileSz (a : Args) (d : Dev) (l : List BlkInfo) : ℕ := leNat 4 (content a d l)

section Header
variable {a : Args} {l : List BlkInfo}

theorem content_page0 {d : Dev} {i : ℕ} (hi : i < a.lblkSz) : content a d l i = page a d l 0 i := by
  have h := flat_page (page a d l) 0 hi
  rwa [Nat.zero_mul, Nat.zero_add] at h

theorem fileSz_page0 {d : Dev} (hm : Mounted a d) : fileSz a d l = leNat 4 (page a d l 0) := by
  have hL : 1024 ≤ a.lblkSz := hm.geo.le_lblkSz
  exact leNat_congr fun i hi => content_page0 (by omega)

/-- **`dev_file_size` reads the header.** -/
theorem devFileSize_eq {s t : St} {f : ℤ} (h : SeqOk a l) (hne : l ≠ []) (hm : Mounted a t.dev)
    (hseq : devGetFileSeq a s f = some (l, t)) :
    devFileSize a s f = some (cint (fileSz a t.dev l), t) := by
  have hread := devReadById_eq h hm (List.length_pos_iff.mpr hne)
  unfold devFileSize
  refine Option.bind_eq_some_iff.mpr ⟨_, hseq, ?_⟩
  refine Option.bind_eq_some_iff.mpr ⟨_, hread, ?_⟩
  dsimp only
  rw [fileSz_page0 hm]

/-- **`dev_set_file_size` writes the header.** -/
theorem devSetFileSize_eq {s : St} {f : ℤ} (h : SeqOk a l) (hne : l ≠ []) (hm : Mounted a s.dev)
    (hseq : s.mapSeq f = some l) (size : ℤ) :
    ∃ s', devSetFileSize a s f size = some (0, s') ∧ Wrote a l s s' ∧
      content a s'.dev l = memcpy (content a s.dev l) 0 (leByte (u32 size).toNat) 4 := by
  have hL : 1024 ≤ a.lblkSz := hm.geo.le_lblkSz
  have hpos := List.length_pos_iff.mpr hne
  have hread := devReadById_eq h hm hpos
  obtain ⟨s', hop, hw, hpage⟩ := devWriteById_eq h hm hpos
    (memcpy (page a s.dev l 0) 0 (leByte (u32 size).toNat) 4)
  refine ⟨s', ?_, hw, ?_⟩
  · unfold devSetFileSize
    refine Option.bind_eq_some_iff.mpr ⟨_, devGetFileSeq_cached hseq, ?_⟩
    exact Option.bind_eq_some_iff.mpr ⟨_, hread, hop⟩
  · have hstore : page a s'.dev l = store a.lblkSz (memcpy (page a s.dev l 0) 0
        (leByte (u32 size).toNat) 4) 0 1 0 (page a s.dev l) := by
      rw [hpage, store, Nat.zero_mul, shift_zero]
      rfl
    unfold content
    funext p
    rw [hstore, flat_store (by omega), Nat.zero_mul, Nat.sub_zero]
    by_cases hp : p < a.lblkSz
    · rw [if_pos (by omega)]
      by_cases h4 : p < 4
      · rw [memcpy_in (by omega) (by omega), memcpy_in (by omega) (by omega)]
      · rw [memcpy_out (by omega), memcpy_out (by omega)]
        exact (content_page0 hp).symm
    · rw [if_neg (by omega), memcpy_out (by omega)]

end Header

/-! ### Reading -/

section Read
variable {a : Args} {s t : St} {f : ℤ} {l : List BlkInfo}

/-- **`ops_read` inside the file** returns its bytes. -/
theorem opsRead_eq (h : SeqOk a l) (hne : l ≠ []) (hm : Mounted a t.dev)
    (hseq : devGetFileSeq a s f = some (l, t))
    (hsz : 4 + fileSz a t.dev l ≤ l.length * a.lblkSz) (h31 : l.length * a.lblkSz < 2 ^ 31) (buf : Buf)
    {size offset : ℕ} (hin : offset + size ≤ fileSz a t.dev l) :
    opsRead a s buf size offset f =
      some ((size : ℤ), memcpy buf 0 (shift (content a t.dev l) (offset + 4)) size, t) := by
  have hL : 1024 ≤ a.lblkSz := hm.geo.le_lblkSz
  have hpos : 0 < a.lblkSz := by omega
  have hcached : t.mapSeq f = some l := by
    obtain ⟨c, rfl, -⟩ := devGetFileSeq_frame hseq
    exact Function.update_self _ _ _
  have hfsz : toSizeT (cint (fileSz a t.dev l)) = fileSz a t.dev l := toSizeT_cint (by omega)
  have hmod : (offset + 4) % a.lblkSz < a.lblkSz := Nat.mod_lt _ hpos
  have hdm := Nat.div_add_mod (offset + 4) a.lblkSz
  have hle : pages a.lblkSz (offset + 4 + size) ≤ l.length := (pages_le_iff hpos).mpr (by omega)
  have hsum := div_add_pages hpos (offset + 4) size
  have hfit := le_pages_mul hpos ((offset + 4) % a.lblkSz + size)
  have hcnt : toBlkCnt (cint (((offset + 4) % a.lblkSz + size : ℕ))) a.lblkSz =
      pages a.lblkSz ((offset + 4) % a.lblkSz + size) := by
    have hsmall : (offset + 4) % a.lblkSz + size < 2 ^ 31 := by
      have := Nat.mod_le (offset + 4) a.lblkSz
      omega
    rw [cint_of_lt (by omega) (by omega), toBlkCnt_eq hpos]
  have hloop := readLoop_eq h hm ((offset + 4) / a.lblkSz)
    (pages a.lblkSz ((offset + 4) % a.lblkSz + size)) (i := 0) a.junk
    (by rw [Nat.add_zero, hsum]; exact hle)
  unfold opsRead
  refine Option.bind_eq_some_iff.mpr ⟨_, devFileSize_eq h hne hm hseq, ?_⟩
  dsimp only
  have hshort : ¬ fileSz a t.dev l < offset + size := by omega
  rw [hfsz, Nat.mod_eq_of_lt (by omega : offset + size < 2 ^ 64)]
  simp only [hshort, if_false, false_and]
  rw [hcnt, if_neg (Int.not_lt.mpr (Int.natCast_nonneg _))]
  refine Option.bind_eq_some_iff.mpr ⟨_, devGetFileSeq_cached hcached, ?_⟩
  dsimp only
  rw [Int.toNat_natCast]
  refine Option.bind_eq_some_iff.mpr ⟨_, hloop, ?_⟩
  dsimp only
  rw [if_neg (by rw [← Nat.cast_mul, Nat.cast_lt, Nat.mul_comm]; omega),
    cint_of_lt (by omega) (by omega)]
  refine congrArg (fun b => some ((size : ℤ), b, t)) (funext fun i => ?_)
  by_cases hi : i < size
  · rw [memcpy_in (by omega) (by omega), memcpy_in (by omega) (by omega), shift_apply, shift_apply,
      fetch_apply, if_pos ⟨by omega, by rw [Nat.zero_add]; omega⟩, Nat.sub_zero]
    show content a t.dev l _ = _
    rw [Nat.mul_comm, ← Nat.add_assoc, hdm]
  · rw [memcpy_out (by omega), memcpy_out (by omega)]

end Read

/-! ### Writing -/

section Write
variable {a : Args} {s t : St} {f : ℤ} {l : List BlkInfo} {cl : List ℤ}

theorem SeqOk.bytes_lt {d : Dev} (hm : Mounted a d) (h : SeqOk a l) :
    l.length * a.lblkSz < 2 ^ 31 := by
  have hexact : volLen a.fsHead < 2 ^ 31 := hm.geo.exact
  have hlen := h.length_le
  have hvol : a.cluCnt * 7 * a.lblkSz ≤ volLen a.fsHead :=
    Nat.mul_le_mul_right _ (by unfold bloksPerCluster Args.cluCnt; omega)
  exact lt_of_le_of_lt ((Nat.mul_le_mul_right _ hlen).trans hvol) hexact

theorem FileSeq.bytes_lt {T : ℤ → Fin 7 → BlkEnt} {d : Dev} (hm : Mounted a d)
    (h : FileSeq a T f l) : l.length * a.lblkSz < 2 ^ 31 := h.seqOk.bytes_lt hm

theorem content_prefix {d d' : Dev} {l' : List BlkInfo} (h : SeqOk a l) (h' : SeqOk a l')
    (hpre : l <+: l') (hd : ∀ b ∈ l, data a d' b.cid b.bid = data a d b.cid b.bid) {p : ℕ}
    (hp : p < l.length * a.lblkSz) : content a d' l' p = content a d l p := by
  have hk : p / a.lblkSz < l.length := Nat.div_lt_of_lt_mul (by rw [Nat.mul_comm]; exact hp)
  obtain ⟨b, hb, hnum⟩ := h.exists_num hk
  unfold content flat
  rw [← hnum, page_of_mem h d hb, page_of_mem h' d' (hpre.subset hb), hd b hb]

theorem fileSz_congr {d d' : Dev} {l' : List BlkInfo} (h : ∀ p < 4, content a d' l' p = content a d l p) :
    fileSz a d' l' = fileSz a d l := leNat_congr h

theorem write_size {fsz size offset : ℕ} (hfsz : fsz < 2 ^ 31) (hlen : offset + 4 + size < 2 ^ 31) :
    (if toSizeT (cint fsz) < offset + 4 - 4 + size then cint (offset + 4 - 4 + size : ℕ)
      else cint fsz) = ((max fsz (offset + size) : ℕ) : ℤ) := by
  rw [toSizeT_cint hfsz, Nat.add_sub_cancel]
  by_cases hlt : fsz < offset + size
  · rw [if_pos hlt, cint_of_lt (by omega) (by omega), Nat.max_eq_right hlt.le]
  · rw [if_neg hlt, cint_of_lt (by omega) (by omega), Nat.max_eq_left (Nat.not_lt.mp hlt)]

theorem writeNeed_eq (hm : Mounted a t.dev) {size offset : ℕ} (hlen : offset + 4 + size < 2 ^ 31) :
    writeNeed a size offset = pages a.lblkSz (offset + 4 + size) ∧
      toBlkCnt (cint (((offset + 4) % a.lblkSz + size : ℕ))) a.lblkSz =
        pages a.lblkSz ((offset + 4) % a.lblkSz + size) := by
  have hL : 1024 ≤ a.lblkSz := hm.geo.le_lblkSz
  have hpos : 0 < a.lblkSz := by omega
  have hmod := Nat.mod_le (offset + 4) a.lblkSz
  have hcnt : toBlkCnt (cint (((offset + 4) % a.lblkSz + size : ℕ))) a.lblkSz =
      pages a.lblkSz ((offset + 4) % a.lblkSz + size) := by
    rw [cint_of_lt (by omega) (by omega), toBlkCnt_eq hpos]
  refine ⟨?_, hcnt⟩
  unfold writeNeed
  rw [hcnt, ← div_add_pages hpos (offset + 4) size]
  push_cast
  rfl

/-- The loops of a write and the new size, through a list that is long enough. -/
theorem write_pages {l' : List BlkInfo} {u : St} (hm : Mounted a u.dev) (h' : SeqOk a l')
    (hne : l' ≠ []) (hseq : u.mapSeq f = some l') (data : Buf) {size offset : ℕ}
    (hneed : pages a.lblkSz (offset + 4 + size) ≤ l'.length) (hlen : offset + 4 + size < 2 ^ 31)
    (hfsz : fileSz a u.dev l' < 2 ^ 31) :
    ∃ v w tmp, readLoop a u.dev l' l'.length (((offset + 4) / a.lblkSz : ℕ) : ℤ)
        (pages a.lblkSz ((offset + 4) % a.lblkSz + size)) 0 a.junk = some (some tmp) ∧
      writeLoop a (memcpy tmp ((offset + 4) % a.lblkSz) data size) l' l'.length
        (((offset + 4) / a.lblkSz : ℕ) : ℤ) (pages a.lblkSz ((offset + 4) % a.lblkSz + size)) 0 u =
          some (true, v) ∧
      devFileSize a v f = some (cint (fileSz a u.dev l'), v) ∧
      devSetFileSize a v f ((max (fileSz a u.dev l') (offset + size) : ℕ) : ℤ) = some (0, w) ∧
      Wrote a l' u w ∧
      content a w.dev l' = memcpy (memcpy (content a u.dev l') (offset + 4) data size) 0
        (leByte (max (fileSz a u.dev l') (offset + size))) 4 := by
  have hL : 1024 ≤ a.lblkSz := hm.geo.le_lblkSz
  have hpos : 0 < a.lblkSz := by omega
  have hsum := div_add_pages hpos (offset + 4) size
  have hfit := le_pages_mul hpos ((offset + 4) % a.lblkSz + size)
  have hle : (offset + 4) / a.lblkSz + 0 + pages a.lblkSz ((offset + 4) % a.lblkSz + size) ≤
      l'.length := by
    rw [Nat.add_zero, hsum]
    exact hneed
  have hread := readLoop_eq h' hm ((offset + 4) / a.lblkSz)
    (pages a.lblkSz ((offset + 4) % a.lblkSz + size)) (i := 0) a.junk hle
  obtain ⟨v, hwrite, hwv, hpage⟩ := writeLoop_eq h' (memcpy (fetch a.lblkSz (page a u.dev l')
    ((offset + 4) / a.lblkSz) (pages a.lblkSz ((offset + 4) % a.lblkSz + size)) 0 a.junk)
    ((offset + 4) % a.lblkSz) data size) ((offset + 4) / a.lblkSz)
    (pages a.lblkSz ((offset + 4) % a.lblkSz + size)) (i := 0) hm hle
  have hcont : content a v.dev l' = memcpy (content a u.dev l') (offset + 4) data size := by
    have hdm := Nat.div_add_mod (offset + 4) a.lblkSz
    rw [Nat.mul_comm] at hdm
    unfold content
    rw [hpage, flat_store_memcpy hpos _ _ _ _ _ _ _ hfit, hdm]
  have hsz : fileSz a v.dev l' = fileSz a u.dev l' := by
    refine fileSz_congr fun p hp => ?_
    rw [hcont, memcpy_out (by omega)]
  have hvseq : v.mapSeq f = some l' := by rw [hwv.mem]; exact hseq
  have hsize := devFileSize_eq h' hne hwv.mounted (devGetFileSeq_cached (a := a) hvseq)
  rw [hsz] at hsize
  obtain ⟨w, hset, hww, hcontw⟩ := devSetFileSize_eq h' hne hwv.mounted hvseq
    ((max (fileSz a u.dev l') (offset + size) : ℕ) : ℤ)
  refine ⟨v, w, _, hread, hwrite, hsize, hset, hwv.trans hww, ?_⟩
  rw [hcontw, hcont, toNat_u32_of_lt (by omega) (by omega), Int.toNat_natCast]

/-- **`ops_write` writes**: the file has the blocks it needs, its contents are the old ones with the
bytes put in, and its size is raised to the end of what was written. -/
theorem opsWrite_eq (hsm : a.cluCnt ≤ 65535) (hf0 : 0 < f) (hft : f < tableLen)
    (hm : Mounted a t.dev) (hag : Agree a t.dev t.fsBitmap)
    (hseq : devGetFileSeq a s f = some (l, t)) (hg : Growable a t f l cl) (path : Path) (data : Buf)
    {size offset : ℕ} (hlen : offset + 4 + size < 2 ^ 31)
    (hsz : fileSz a t.dev l < 2 ^ 31)
    (hspace : (l.length : ℤ) < writeNeed a size offset →
      Space a t.dev cl (writeNeed a size offset - l.length).toNat) :
    ∃ l' u s', opsWrite a s path data size offset f = some ((size : ℤ), s') ∧
      GrewTo a f l l' (grownClrs a t.dev cl (writeNeed a size offset - l.length).toNat) t u ∧
      Wrote a l' u s' ∧ pages a.lblkSz (offset + 4 + size) ≤ l'.length ∧
      content a s'.dev l' = memcpy (memcpy (content a u.dev l') (offset + 4) data size) 0
        (leByte (max (fileSz a t.dev l) (offset + size))) 4 ∧
      (writeNeed a size offset ≤ l.length → u = t) := by
  have hL : 1024 ≤ a.lblkSz := hm.geo.le_lblkSz
  obtain ⟨hneed, hcnt⟩ := writeNeed_eq hm hlen
  have hcached : t.mapSeq f = some l := by
    obtain ⟨c, rfl, -⟩ := devGetFileSeq_frame hseq
    exact Function.update_self _ _ _
  obtain ⟨l', u, hgrow, hle, hgr, hstay⟩ := growTo_eq hsm hf0 hft hm hag hg hcached hspace
  have hfour : 4 ≤ l.length * a.lblkSz := by
    have hpos := List.length_pos_iff.mpr hg.list.ne
    exact (by omega : 4 ≤ 1 * a.lblkSz).trans (Nat.mul_le_mul_right _ hpos)
  have hfsz : fileSz a u.dev l' = fileSz a t.dev l := fileSz_congr fun p hp =>
    content_prefix hg.list.seqOk hgr.list.seqOk hgr.pre hgr.content (by omega)
  have hle' : pages a.lblkSz (offset + 4 + size) ≤ l'.length := by
    rw [hneed] at hle
    omega
  obtain ⟨v, w, tmp, hread, hwrite, hsize, hset, hw, hcont⟩ := write_pages
    hgr.onFile.mounted hgr.list.seqOk hgr.list.ne hgr.seq data hle' hlen (by rw [hfsz]; exact hsz)
  rw [hfsz] at hsize hset hcont
  refine ⟨l', u, w, ?_, hgr, hw, hle', hcont, hstay⟩
  have hblk : ((offset + 4 : ℕ) : ℤ) / (a.lblkSz : ℤ) = ((offset + 4) / a.lblkSz : ℕ) := by
    rw [Int.natCast_ediv]
  unfold writeNeed at hgrow
  unfold opsWrite writeFid
  rw [if_neg (by omega)]
  refine Option.bind_eq_some_iff.mpr ⟨_, rfl, ?_⟩
  refine Option.bind_eq_some_iff.mpr ⟨_, hseq, ?_⟩
  refine Option.bind_eq_some_iff.mpr ⟨_, hgrow, ?_⟩
  dsimp only
  rw [hcnt, hblk, if_neg (Int.not_lt.mpr (Int.natCast_nonneg _)),
    if_neg (Int.not_lt.mpr (Int.natCast_nonneg _)), Int.toNat_natCast]
  refine Option.bind_eq_some_iff.mpr ⟨_, hread, ?_⟩
  refine Option.bind_eq_some_iff.mpr ⟨_, hwrite, ?_⟩
  dsimp only
  rw [if_pos rfl]
  refine Option.bind_eq_some_iff.mpr ⟨_, hsize, ?_⟩
  dsimp only
  rw [write_size hsz hlen]
  refine Option.bind_eq_some_iff.mpr ⟨_, hset, ?_⟩
  dsimp only
  rw [cint_of_lt (by omega) (by omega)]

end Write

end Fcfs.Vol
