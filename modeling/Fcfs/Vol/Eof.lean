import Fcfs.Vol.ReadBack

/-! # Reads and the end of the file

`ops_read` cuts a request that goes beyond the end of the file: it adds `fsize - (offset + size)` to
`size`. The sum is a `size_t`, so from an offset behind the end it is not negative but close to
`2^64`, the test for an empty read does not see it, and the read goes on (`opsRead_beyond`). From
every other offset the read returns what there is up to the end of the file (`opsRead_upTo`). -/

namespace Fcfs.Vol

open Lib.Bytes Lib.Paged

/-- **The block lists of the files are exact**: the list of a live file, cached or rebuilt, has
blocks numbered from 0 and room for the size header and the size in it. -/
def ListsExact (a : Args) (s : St) : Prop :=
  ∀ f, Live s.fsTable f → ∃ l t, devGetFileSeq a s f = some (l, t) ∧ SeqOk a l ∧ l ≠ [] ∧
    4 + fileSz a s.dev l ≤ l.length * a.lblkSz

/-- What `size` becomes in `ops_read`. -/
def readSize (fsize : ℤ) (size offset : ℕ) : ℕ :=
  let total := (offset + size) % 2 ^ 64
  if toSizeT fsize < total then (size + (toSizeT fsize + (2 ^ 64 - total))) % 2 ^ 64 else size

/-- `sz_cnt`, the number of rounds of the loop of `ops_read`. -/
def readCnt (a : Args) (fsize : ℤ) (size offset : ℕ) : ℤ :=
  toBlkCnt (cint ((offset + 4) % a.lblkSz + readSize fsize size offset : ℕ)) a.lblkSz

theorem opsRead_readCnt (a : Args) (s : St) (buf : Buf) (size offset : ℕ) (fh : ℤ) :
    opsRead a s buf size offset fh = (do
      let (fsize, s) ← devFileSize a s fh
      if toSizeT fsize < (offset + size) % 2 ^ 64 ∧ readSize fsize size offset = 0 then
        some (0, buf, s)
      else if readCnt a fsize size offset < 0 then none
      else do
        let (inf, s) ← devGetFileSeq a s fh
        match ← readLoop a s.dev inf inf.length ((offset + 4 : ℕ) / a.lblkSz)
          (readCnt a fsize size offset).toNat 0 a.junk with
        | none => some (-1, buf, s)
        | some tmp =>
          if a.lblkSz * readCnt a fsize size offset <
            ((offset + 4) % a.lblkSz + readSize fsize size offset : ℕ) then none
          else some (cint (readSize fsize size offset),
            memcpy buf 0 (shift tmp ((offset + 4) % a.lblkSz)) (readSize fsize size offset), s)) := rfl

/-- **A read that obeys the end of the file**, of the list `l` found for it: the bytes from the
offset up to the end of the request or of the file are copied and counted, and the loop runs no
more often than the file has blocks. -/
def ObeysEof (a : Args) (s : St) (f : ℤ) (l : List BlkInfo) (t : St) (size offset : ℕ) : Prop :=
  readCnt a (cint (fileSz a t.dev l)) size offset ≤ l.length ∧
    ∀ buf, opsRead a s buf size offset f =
      some (((min size (fileSz a t.dev l - offset) : ℕ) : ℤ),
        memcpy buf 0 (shift (content a t.dev l) (offset + 4)) (min size (fileSz a t.dev l - offset)), t)

section Size
variable {fsz size offset : ℕ} (hfsz : fsz < 2 ^ 31) (hsize : size < 2 ^ 31) (hoff : offset < 2 ^ 31)
include hfsz

include hsize hoff

theorem readSize_upTo (hle : offset ≤ fsz) :
    readSize (cint fsz) size offset = min size (fsz - offset) := by
  unfold readSize
  rw [toSizeT_cint hfsz]
  dsimp only
  split_ifs <;> omega

theorem readSize_beyond (hlt : fsz < offset) :
    readSize (cint fsz) size offset = 2 ^ 64 - (offset - fsz) := by
  unfold readSize
  rw [toSizeT_cint hfsz]
  dsimp only
  rw [if_pos (by omega)]
  omega

end Size

theorem mul_toBlkCnt_lt {L : ℕ} (hL : 0 < L) (x : ℤ) : L * toBlkCnt x L < x + L := by
  have h := Int.emod_add_mul_ediv (-x) L
  have h1 := Int.emod_lt_of_pos (-x) (show (0 : ℤ) < L by omega)
  unfold toBlkCnt
  rw [Int.mul_neg]
  omega

section Read
variable {a : Args} {s t : St} {f : ℤ} {l : List BlkInfo} {size offset : ℕ}

/-- **A read from behind the end of the file** fails or has no defined outcome. -/
theorem opsRead_beyond (hm : Mounted a t.dev) (hfsz : fileSz a t.dev l < 2 ^ 31)
    (hfile : devFileSize a s f = some (cint (fileSz a t.dev l), t))
    (hsize : size < 2 ^ 31) (hoff : offset < 2 ^ 31) (hlt : fileSz a t.dev l < offset) (buf : Buf)
    {r : ℤ × Buf × St} (hop : opsRead a s buf size offset f = some r) : r.1 = -1 := by
  have hL : 1024 ≤ a.lblkSz := hm.geo.le_lblkSz
  have hL31 : a.lblkSz < 2 ^ 31 := hm.geo.lblkSz_lt
  have hn := readSize_beyond hfsz hsize hoff hlt
  -- the buffer has less than `2^32` bytes
  have hsmall : a.lblkSz * readCnt a (cint (fileSz a t.dev l)) size offset <
      ((offset + 4) % a.lblkSz + readSize (cint (fileSz a t.dev l)) size offset : ℕ) := by
    have hmul := mul_toBlkCnt_lt (show 0 < a.lblkSz by omega)
      (cint ((offset + 4) % a.lblkSz + readSize (cint (fileSz a t.dev l)) size offset : ℕ))
    have hcint := Int.bmod_lt (x := ((offset + 4) % a.lblkSz +
      readSize (cint (fileSz a t.dev l)) size offset : ℕ)) (m := 2 ^ 32) (by omega)
    unfold readCnt
    unfold cint at *
    omega
  rw [opsRead_readCnt] at hop
  obtain ⟨_, hsz, hop⟩ := Option.bind_eq_some_iff.mp hop
  obtain rfl := Option.some.inj (hfile.symm.trans hsz)
  dsimp only at hop
  rw [if_neg (by omega)] at hop
  split_ifs at hop with hneg
  obtain ⟨⟨inf, u⟩, -, hop⟩ := Option.bind_eq_some_iff.mp hop
  obtain ⟨res, -, hop⟩ := Option.bind_eq_some_iff.mp hop
  cases res with
  | none =>
    obtain rfl := Option.some.inj hop
    rfl
  | some tmp => cases hop

theorem opsRead_none_left (hfsz : fileSz a t.dev l < 2 ^ 31)
    (hfile : devFileSize a s f = some (cint (fileSz a t.dev l), t))
    (hsize : size < 2 ^ 31) (hoff : offset < 2 ^ 31) (hlt : fileSz a t.dev l < offset + size)
    (h0 : readSize (cint (fileSz a t.dev l)) size offset = 0) (buf : Buf) :
    opsRead a s buf size offset f = some (0, buf, t) := by
  have hshort : toSizeT (cint (fileSz a t.dev l)) < (offset + size) % 2 ^ 64 := by
    rw [toSizeT_cint hfsz]
    omega
  rw [opsRead_readCnt]
  refine Option.bind_eq_some_iff.mpr ⟨_, hfile, ?_⟩
  exact if_pos ⟨hshort, h0⟩

theorem opsRead_same {n : ℕ} {fsize : ℤ} (hfile : devFileSize a s f = some (fsize, t))
    (hn : readSize fsize size offset = readSize fsize n offset) (h0 : readSize fsize n offset ≠ 0)
    (buf : Buf) : opsRead a s buf size offset f = opsRead a s buf n offset f := by
  have hcnt : readCnt a fsize size offset = readCnt a fsize n offset := by
    unfold readCnt
    rw [hn]
  rw [opsRead_readCnt, opsRead_readCnt, hfile]
  simp only [Option.bind_eq_bind, Option.bind_some, hn, hcnt, h0, and_false, if_false]

/-- **A read from an offset in the file** returns what there is up to the end of the file. -/
theorem opsRead_upTo (h : SeqOk a l) (hne : l ≠ []) (hm : Mounted a t.dev)
    (hseq : devGetFileSeq a s f = some (l, t))
    (hsz : 4 + fileSz a t.dev l ≤ l.length * a.lblkSz) (h31 : l.length * a.lblkSz < 2 ^ 31)
    (hsize : size < 2 ^ 31) (hoff : offset < 2 ^ 31) (hle : offset ≤ fileSz a t.dev l) :
    ObeysEof a s f l t size offset := by
  have hL : 1024 ≤ a.lblkSz := hm.geo.le_lblkSz
  have hpos : 0 < a.lblkSz := by omega
  have hfsz : fileSz a t.dev l < 2 ^ 31 := by omega
  have hn := readSize_upTo hfsz hsize hoff hle
  obtain ⟨n, hmin⟩ : ∃ n, min size (fileSz a t.dev l - offset) = n := ⟨_, rfl⟩
  have hend : offset + n ≤ fileSz a t.dev l := by omega
  unfold ObeysEof
  rw [hmin] at hn ⊢
  refine ⟨?_, fun buf => ?_⟩
  · have hmod := Nat.mod_le (offset + 4) a.lblkSz
    have hpg : pages a.lblkSz (offset + 4 + n) ≤ l.length := (pages_le_iff hpos).mpr (by omega)
    rw [← div_add_pages hpos] at hpg
    have hle' := (Nat.le_add_left _ _).trans hpg
    unfold readCnt
    rw [hn, cint_of_lt (by omega) (by omega), toBlkCnt_eq hpos]
    omega
  · have hfile := devFileSize_eq h hne hm hseq
    have hread := opsRead_eq h hne hm hseq hsz h31 buf hend
    by_cases h0 : n = 0
    · rw [h0] at hn hread ⊢
      by_cases hlt : fileSz a t.dev l < offset + size
      · rw [opsRead_none_left hfsz hfile hsize hoff hlt hn buf]
        refine congrArg (fun b => some ((0 : ℤ), b, t)) (funext fun i => ?_)
        rw [memcpy_out (by omega)]
      · obtain rfl : size = 0 := by omega
        exact hread
    · have hn' : readSize (cint (fileSz a t.dev l)) n offset = min n (fileSz a t.dev l - offset) :=
        readSize_upTo hfsz (by omega) hoff hle
      rw [Nat.min_eq_left (by omega)] at hn'
      rw [← hread]
      exact opsRead_same hfile (hn.trans hn'.symm) (by rw [hn']; exact h0) buf

/-- **`ops_read` obeys the end of the file exactly from the offsets up to it.** -/
theorem obeysEof_iff (hm : Mounted a s.dev) (hex : ListsExact a s) (hlive : Live s.fsTable f)
    (hseq : devGetFileSeq a s f = some (l, t)) (hsize : size < 2 ^ 31) (hoff : offset < 2 ^ 31) :
    ObeysEof a s f l t size offset ↔ offset ≤ fileSz a s.dev l := by
  obtain ⟨l', t', hseq', hok, hne, hsz⟩ := hex f hlive
  obtain ⟨rfl, rfl⟩ := Prod.mk.inj (Option.some.inj (hseq'.symm.trans hseq))
  obtain ⟨c, ht, -⟩ := devGetFileSeq_frame hseq
  have hdev : t'.dev = s.dev := by rw [ht]; rfl
  rw [← hdev] at hm hsz ⊢
  have h31 : l'.length * a.lblkSz < 2 ^ 31 := hok.bytes_lt hm
  refine ⟨fun hobeys => ?_, fun hle => opsRead_upTo hok hne hm hseq hsz h31 hsize hoff hle⟩
  by_contra hlt
  have hbad := opsRead_beyond hm (by omega) (devFileSize_eq hok hne hm hseq) hsize hoff
    (Nat.lt_of_not_le hlt) a.junk (hobeys.2 a.junk)
  dsimp only at hbad
  omega

end Read

theorem Consistent.listsExact {a : Args} {s : St} (hclu : 0 < a.cluCnt) (hc : Consistent a s) :
    ListsExact a s := by
  intro f hf
  obtain ⟨l, t, hseq⟩ := hc.exists_lookup (Or.inr hf)
  have hsz := hc.sizes f (Or.inr hf) l (seqOf_of_lookup hseq)
  by_cases hf0 : f = 0
  · rw [hf0] at hseq
    have hperm := hc.rootSeq l (seqOf_of_lookup hseq)
    refine ⟨l, t, by rw [hf0]; exact hseq, seqOk_root hclu hperm, fun hnil => ?_, hsz⟩
    rw [hnil] at hperm
    exact absurd hperm.length_eq (by decide)
  · have hfile := hc.files f hf hf0 l (seqOf_of_lookup hseq)
    exact ⟨l, t, hseq, hfile.seqOk, hfile.ne, hsz⟩

theorem fileSz_pairSt (D : ℕ → ℕ → Buf) :
    fileSz sevenArgs (pairSt D).dev (sortNodes (sevenNodes pairTab 1 [1])) = leNat 4 (D 1 1) := by
  obtain ⟨t, -, hfile⟩ := file_pairSt D (f := 1) (Or.inl rfl)
  have hmem : (⟨1, 1, 0⟩ : BlkInfo) ∈ sortNodes (sevenNodes pairTab 1 [1]) :=
    (sortNodes_perm _).mem_iff.mpr (by decide)
  exact size_sevenSt hfile.seqOk hmem rfl

theorem fileSz_sevenPair : fileSz sevenArgs sevenPair.dev (sortNodes (sevenNodes pairTab 1 [1])) = 0 :=
  (fileSz_pairSt _).trans (by decide)

/-- A read of one byte at offset 1 of an empty file does not return 0. -/
theorem not_obeysEof_sevenPair : ¬ ∀ (a : Args) (s : St) (f : ℤ) (l : List BlkInfo) (t : St)
    (size offset : ℕ), Mounted a s.dev → Consistent a s → Live s.fsTable f →
      devGetFileSeq a s f = some (l, t) → size < 2 ^ 31 → offset < 2 ^ 31 →
      ObeysEof a s f l t size offset := by
  intro h
  have hm : Mounted sevenArgs sevenPair.dev := mounted_sevenSt _ _ _ _
  have hlive : Live sevenPair.fsTable 1 := (live_sevenPair (by decide)).mpr (Or.inl rfl)
  obtain ⟨t, hseq, hfile⟩ := file_sevenPair (f := 1) (Or.inl rfl)
  have hdev : t.dev = sevenPair.dev := by
    obtain ⟨c, rfl, -⟩ := devGetFileSeq_frame hseq
    rfl
  have hobeys := (h sevenArgs sevenPair 1 _ t 1 1 hm consistent_sevenPair hlive hseq (by decide)
    (by decide)).2 (fun _ => 0)
  have hsz := devFileSize_eq hfile.seqOk hfile.ne (hdev.symm ▸ hm) hseq
  have hbad := opsRead_beyond (hdev.symm ▸ hm) (by rw [hdev, fileSz_sevenPair]; decide) hsz (by decide)
    (by decide) (by rw [hdev, fileSz_sevenPair]; decide) (fun _ => 0) hobeys
  dsimp only at hbad
  omega

/-- The block of file 1 holds 200 bytes. -/
def textData (c b : ℕ) : Buf :=
  if c = 1 ∧ b = 1 then memcpy (fun k => UInt8.ofNat k) 0 (leByte 200) 4 else fun _ => 0

/-- Of a hundred bytes at offset 150 the fifty that are there are read. -/
theorem obeysEof_sevenText : ∃ l t, devGetFileSeq sevenArgs (pairSt textData) 1 = some (l, t) ∧
    fileSz sevenArgs (pairSt textData).dev l = 200 ∧ ObeysEof sevenArgs (pairSt textData) 1 l t 100 150 := by
  have hsz : leNat 4 (textData 1 1) = 200 := by decide
  have hc : Consistent sevenArgs (pairSt textData) :=
    consistent_pairSt textData (by decide) (by rw [hsz]; decide) (by decide)
  obtain ⟨t, hseq, -⟩ := file_pairSt textData (f := 1) (Or.inl rfl)
  have hfile := (fileSz_pairSt textData).trans hsz
  refine ⟨_, t, hseq, hfile, (obeysEof_iff (mounted_sevenSt _ _ _ _) (hc.listsExact (by decide))
    ((live_pairSt textData (by decide)).mpr (Or.inl rfl)) hseq (by decide) (by decide)).mpr ?_⟩
  exact le_of_le_of_eq (by decide) hfile.symm

end Fcfs.Vol
