import Fcfs.Vol.DirBack

/-! # How often the write loop of a directory runs

The bound of the write loop of `dev_write_dir` is what the attempt to extend the directory returned.
If it failed, that is `-1`, and the counter has no sign: the loop runs `2^64 - 1` times, writes nothing and
returns `-1` (`endsCleanly_iff`). If the directory has more blocks than the entries need, the loop goes on behind
the end of the buffer (`keepsToBuffer_iff`), and the memory there is stored on the device
(`DirGrown.keepsToBuffer_iff_stored`). -/

namespace Fcfs.Vol

open Lib.Bytes

/-- **The write loop keeps to the buffer**: every slice that it hands on is one of the `dir_blk_cnt` of the
buffer, and so is every byte. -/
def KeepsToBuffer (a : Args) (ent : List DirEntry) (z : ℤ) : Prop :=
  ∀ i < toSizeT z, (i : ℤ) < dirNeed a ent.length ∧
    ∀ k < a.lblkSz, ((i * a.lblkSz + k : ℕ) : ℤ) < dirNeed a ent.length * a.lblkSz

/-! ### What the attempt leaves -/

section Attempt
variable {a : Args} {s t u : St} {d need z : ℤ} {l l' : List BlkInfo}

theorem devExtdBlkList_root {count : ℕ} (h : devExtdBlkList a t l l.length count 0 = some (z, l', u)) :
    z = -1 ∧ l' = l ∧ u = t := by
  unfold devExtdBlkList at h
  obtain ⟨⟨blks, m⟩, -, h⟩ := Option.bind_eq_some_iff.mp h
  obtain ⟨⟨res, blks', v⟩, hres, h⟩ := Option.bind_eq_some_iff.mp h
  unfold devFileReserve at hres
  rw [if_pos rfl] at hres
  obtain ⟨rfl, hst⟩ := Prod.mk.inj (Option.some.inj hres)
  obtain ⟨-, rfl⟩ := Prod.mk.inj hst
  dsimp only at h
  rw [if_pos (by decide)] at h
  obtain ⟨rfl, hls⟩ := Prod.mk.inj (Option.some.inj h)
  obtain ⟨rfl, rfl⟩ := Prod.mk.inj hls
  exact ⟨rfl, rfl, rfl⟩

/-- **How an attempt to extend ends**: there was no need for it, it failed and changed nothing but the
cluster-list cache, or it gave as many blocks as are needed. -/
theorem growTo_cases (h : growTo a t l need d = some (z, l', u)) :
    need ≤ l.length ∧ z = l.length ∧ l' = l ∧ u = t ∨
    (l.length : ℤ) < need ∧ z = -1 ∧ l' = l ∧ (∃ c, u = { t with clrsCache := c }) ∧
      (d = 0 ∨ ∃ n < 0, (devTblClrsCnt a t d).map Prod.fst = some n) ∨
    (l.length : ℤ) < need ∧ z = need ∧ (l'.length : ℤ) = need ∧ d ≠ 0 ∧
      ∃ n, 0 ≤ n ∧ (devTblClrsCnt a t d).map Prod.fst = some n := by
  unfold growTo at h
  by_cases hlt : (l.length : ℤ) < need
  · rw [if_pos hlt] at h
    by_cases hd : d = 0
    · subst hd
      obtain ⟨rfl, rfl, rfl⟩ := devExtdBlkList_root h
      exact Or.inr (Or.inl ⟨hlt, rfl, rfl, ⟨_, rfl⟩, Or.inl rfl⟩)
    rcases devExtdBlkList_cases hd (by omega) h with ⟨n, hn, hneg, rfl, rfl⟩ |
        ⟨n, v, blks, hn, h0, hz, hblks, rfl, -⟩
    · obtain ⟨c, hu, -⟩ := devTblClrsCnt_frame hn
      exact Or.inr (Or.inl ⟨hlt, rfl, rfl, ⟨c, hu⟩, Or.inr ⟨n, hneg, by rw [hn]; rfl⟩⟩)
    · refine Or.inr (Or.inr ⟨hlt, by omega, ?_, hd, n, h0, by rw [hn]; rfl⟩)
      rw [List.length_append]
      omega
  · rw [if_neg hlt] at h
    obtain ⟨rfl, hls⟩ := Prod.mk.inj (Option.some.inj h)
    obtain ⟨rfl, rfl⟩ := Prod.mk.inj hls
    exact Or.inl ⟨not_lt.mp hlt, rfl, rfl, rfl⟩

theorem toSizeT_le (h0 : 0 ≤ z) : toSizeT z ≤ z.toNat := by
  unfold toSizeT
  omega

end Attempt

/-! ### A loop whose bound is -1 -/

section Fails
variable {a : Args} {s s' t t' u : St} {d : ℤ} {l l' : List BlkInfo} {ent : List DirEntry}

theorem writeDirLoop_neg (dirBuf : Buf) (l : List BlkInfo) {z : ℤ} (hz : z < 0) (n : ℕ) :
    ∀ (i : ℕ) (res : ℤ) (s : St), writeDirLoop a dirBuf l z (n + 1) i res s = some (-1, s) := by
  induction n with
  | zero =>
    intro i res s
    unfold writeDirLoop devWriteById seqLookup
    rw [if_pos hz.le]
    rfl
  | succ n ih =>
    intro i res s
    have hround : devWriteById a s i (shift dirBuf (i * a.lblkSz)) l z = some (-1, s) := by
      unfold devWriteById seqLookup
      rw [if_pos hz.le]
      rfl
    unfold writeDirLoop
    exact Option.bind_eq_some_iff.mpr ⟨_, hround, ih (i + 1) (-1) s⟩

end Fails

/-! ### The claims -/

section Claims
variable {a : Args} {s t u : St} {d z : ℤ} {l l' : List BlkInfo} (hm : Mounted a s.dev)
  (hc : Consistent a s) (hd : d = 0 ∨ Live s.fsTable d) (ent : List DirEntry)
  (hseq : devGetFileSeq a s d = some (l, t))
  (hgrow : growTo a t l (dirNeed a ent.length) d = some (z, l', u))
include hm hc hd hseq

theorem Consistent.length_lt : l.length < 2 ^ 31 := by
  have hL : 1024 ≤ a.lblkSz := hm.geo.le_lblkSz
  have hbytes := (hc.seqOk hd (seqOf_of_lookup hseq)).bytes_lt hm
  exact lt_of_le_of_lt (Nat.le_mul_of_pos_right _ (by omega)) hbytes

include hgrow

/-- **When the write loop keeps to the buffer**: the directory has no more blocks than the entries need. -/
theorem keepsToBuffer_iff (hz : 0 ≤ z) : KeepsToBuffer a ent z ↔ (l.length : ℤ) ≤ dirNeed a ent.length := by
  have hlen := hc.length_lt hm hd hseq
  have hslice : ∀ i : ℕ, (i : ℤ) < dirNeed a ent.length →
      ∀ k < a.lblkSz, ((i * a.lblkSz + k : ℕ) : ℤ) < dirNeed a ent.length * a.lblkSz := by
    intro i hi k hk
    have hmul := Int.mul_le_mul_of_nonneg_right (Int.add_one_le_of_lt hi) (Int.natCast_nonneg a.lblkSz)
    rw [Int.add_mul, Int.one_mul] at hmul
    push_cast
    omega
  have hneed : 0 ≤ dirNeed a ent.length := by
    have hL : 1024 ≤ a.lblkSz := hm.geo.le_lblkSz
    unfold dirNeed
    rw [toBlkCnt_eq (by omega)]
    exact Int.natCast_nonneg _
  rcases growTo_cases hgrow with ⟨hle, rfl, -⟩ | ⟨-, rfl, -⟩ | ⟨hlt, rfl, -⟩
  · have hrounds : toSizeT l.length = l.length := by
      rw [toSizeT_natCast (by omega)]
    unfold KeepsToBuffer
    rw [hrounds]
    refine ⟨fun h => ?_, fun h i hi => ⟨by omega, hslice i (by omega)⟩⟩
    by_contra hgt
    have hlast := (h (dirNeed a ent.length).toNat (by omega)).1
    omega
  · omega
  · refine ⟨fun _ => hlt.le, fun _ i hi => ?_⟩
    have hin : i < (dirNeed a ent.length).toNat := lt_of_lt_of_le hi (toSizeT_le hz)
    exact ⟨by omega, hslice i (by omega)⟩

end Claims

/-! ### The memory behind the buffer -/

section Buffer
variable {a : Args} {s t u : St} {d : ℤ} {l l' : List BlkInfo} {ent : List DirEntry} {k : ℕ}

theorem dirBuf_within (hlt : (k : ℤ) < dirNeed a ent.length * a.lblkSz) (j : Buf) :
    dirBuf { a with junk := j } ent k = dirBuf a ent k := by
  have hin : ∀ b : Args, dirNeed b ent.length = dirNeed a ent.length → b.lblkSz = a.lblkSz → dirBuf b ent k =
      memcpy (memcpy (fun _ => 0) 0 (leByte (ent.length * 64)) 4) 4 (entriesBytes ent) (ent.length * 64) k := by
    intro b hneed hblk
    unfold dirBuf memcpy
    rw [hneed, hblk]
    dsimp only
    rw [if_pos hlt]
  exact (hin { a with junk := j } rfl rfl).trans (hin a rfl rfl).symm

theorem dirBuf_behind (hL : 0 < a.lblkSz) (hge : dirNeed a ent.length * a.lblkSz ≤ k) :
    dirBuf a ent k = a.junk k := by
  have hfit : ent.length * 64 + 4 ≤ k := by
    unfold dirNeed at hge
    rw [toBlkCnt_eq (by omega)] at hge
    have hle := le_pages_mul hL (ent.length * 64 + 4)
    have hge' := Int.ofNat_le.mp (show ((pages a.lblkSz (ent.length * 64 + 4) * a.lblkSz : ℕ) : ℤ) ≤ k by
      push_cast
      exact hge)
    omega
  unfold dirBuf
  rw [memcpy_out (by omega), memcpy_out (by omega), if_neg (not_lt.mpr hge)]

/-- **The loop keeps to the buffer exactly if what it stores does not depend on the memory behind it**: the
blocks of the directory hold the buffer of any memory. -/
theorem DirGrown.keepsToBuffer_iff_stored (h : DirGrown a d (dirNeed a ent.length) l l' s t u) :
    KeepsToBuffer a ent l'.length ↔ ∃ r s', devWriteDir a s d ent = some (r, s') ∧
      ∀ j k, k < l'.length * a.lblkSz → content a s'.dev l' k = dirBuf { a with junk := j } ent k := by
  have hm := h.onFile.mounted
  have hL : 1024 ≤ a.lblkSz := hm.geo.le_lblkSz
  have hle := h.enough
  have hlen : l'.length < 2 ^ 31 :=
    lt_of_le_of_lt (Nat.le_mul_of_pos_right _ (by omega)) (h.list.bytes_lt hm)
  have hrounds : toSizeT l'.length = l'.length := toSizeT_natCast (by omega)
  obtain ⟨r, s', hop, -, -, hcont⟩ := devWriteDir_seq hm h.seq h.grow h.list hle
  constructor
  · intro hkeep
    refine ⟨r, s', hop, fun j k hk => (hcont k hk).trans (dirBuf_within ?_ j).symm⟩
    have hslice := (hkeep (k / a.lblkSz) (by rw [hrounds]; exact Nat.div_lt_of_lt_mul (Nat.mul_comm _ _ ▸ hk))).2
      (k % a.lblkSz) (Nat.mod_lt k (by omega))
    rwa [Nat.mul_comm, Nat.div_add_mod] at hslice
  · rintro ⟨r', u', hop', hall⟩ i hi
    obtain ⟨-, rfl⟩ := Prod.mk.inj (Option.some.inj (hop.symm.trans hop'))
    rw [hrounds] at hi
    -- a byte behind the buffer would be that of every memory
    have hin : ∀ k < a.lblkSz, ((i * a.lblkSz + k : ℕ) : ℤ) < dirNeed a ent.length * a.lblkSz := by
      intro k hk
      by_contra hge
      have hlt : i * a.lblkSz + k < l'.length * a.lblkSz := by
        have hmul := Nat.mul_le_mul_right a.lblkSz (Nat.succ_le_of_lt hi)
        rw [Nat.succ_mul] at hmul
        omega
      have hjunk : ∀ x : UInt8, content a s'.dev l' (i * a.lblkSz + k) = x := fun x =>
        (hall (fun _ => x) _ hlt).trans
          (dirBuf_behind (a := { a with junk := fun _ => x }) (show 0 < a.lblkSz by omega) (not_lt.mp hge))
      exact absurd ((hjunk 0).symm.trans (hjunk 1)) (by decide)
    refine ⟨?_, hin⟩
    have hfirst := hin 0 (by omega)
    rw [Nat.add_zero, Nat.cast_mul] at hfirst
    exact lt_of_mul_lt_mul_right hfirst (Int.natCast_nonneg _)

end Buffer

/-! ### The root of a sample volume -/

theorem root_sevenPair : ∃ l t, devGetFileSeq sevenArgs sevenPair 0 = some (l, t) ∧ l.length = 7 ∧
    t.dev = sevenPair.dev ∧ t.fsBitmap = sevenPair.fsBitmap := by
  obtain ⟨l, t, hseq⟩ := consistent_sevenPair.exists_lookup (f := 0) (Or.inl rfl)
  have hlen := (consistent_sevenPair.rootSeq l (seqOf_of_lookup hseq)).length_eq
  refine ⟨l, t, hseq, hlen, (lookup_cached hseq).2.1, ?_⟩
  obtain ⟨c, rfl, -⟩ := devGetFileSeq_frame hseq
  rfl

/-- **The write loop goes beyond the buffer** for no entries in the root. -/
theorem not_keepsToBuffer_sevenPair : Mounted sevenArgs sevenPair.dev ∧ Consistent sevenArgs sevenPair ∧
    ∃ l t, devGetFileSeq sevenArgs sevenPair 0 = some (l, t) ∧
      growTo sevenArgs t l (dirNeed sevenArgs ([] : List DirEntry).length) 0 = some (7, l, t) ∧
      ¬ KeepsToBuffer sevenArgs [] 7 := by
  obtain ⟨l, t, hseq, hlen, -⟩ := root_sevenPair
  refine ⟨mounted_sevenSt _ _ _ _, consistent_sevenPair, l, t, hseq, ?_, fun h => ?_⟩
  · unfold growTo
    rw [if_neg (by rw [hlen]; decide), hlen]
    rfl
  · exact absurd (h 6 (by decide)).1 (by decide)

/-- A hundred entries need all blocks of the root. -/
theorem keepsToBuffer_sevenPair : KeepsToBuffer sevenArgs (List.replicate 100 secondEntry) 7 := by
  obtain ⟨l, t, hseq, hlen, -⟩ := root_sevenPair
  have hneed : dirNeed sevenArgs (List.replicate 100 secondEntry).length = 7 := by decide
  have hgrow : growTo sevenArgs t l (dirNeed sevenArgs (List.replicate 100 secondEntry).length) 0 =
      some (7, l, t) := by
    unfold growTo
    rw [if_neg (by rw [hneed, hlen]; decide), hlen]
    rfl
  exact (keepsToBuffer_iff (mounted_sevenSt _ _ _ _) consistent_sevenPair (Or.inl rfl) _ hseq hgrow
    (by decide)).mpr (by rw [hneed, hlen]; decide)

end Fcfs.Vol
