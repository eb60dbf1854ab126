import Fcfs.Vol.Dirs
import Fcfs.Vol.Upkeep

/-! # Writing directories

`dev_write_dir` replaces the entries of a directory, if it can have the blocks (`FileOk.writeDir`).
Removing an entry never needs a block more. -/

namespace Fcfs.Vol

open Lib.Bytes Lib.Paged

/-- The blocks a directory of `n` entries needs. -/
def dirNeed (a : Args) (n : ℕ) : ℤ := toBlkCnt (n * 64 + 4 : ℕ) a.lblkSz

/-- The buffer `dev_write_dir` writes. -/
def dirBuf (a : Args) (ent : List DirEntry) : Buf :=
  memcpy (memcpy (fun i => if (i : ℤ) < dirNeed a ent.length * a.lblkSz then 0 else a.junk i) 0
    (leByte (ent.length * 64)) 4) 4 (entriesBytes ent) (ent.length * 64)

section Buffer
variable {a : Args} {ent : List DirEntry} (hlen : ent.length * 64 < 2 ^ 32)
include hlen

theorem leNat_dirBuf : leNat 4 (dirBuf a ent) = ent.length * 64 := by
  have hbytes : leNat 4 (dirBuf a ent) = leNat 4 (leByte (ent.length * 64)) :=
    leNat_congr fun i hi => by
      unfold dirBuf
      rw [memcpy_out (by omega), memcpy_in (by omega) (by omega), Nat.sub_zero]
  rw [hbytes, leNat_leByte, Nat.mod_eq_of_lt (by omega)]

/-- **The buffer holds the entries.** -/
theorem entriesOf_dirBuf : entriesOf (dirBuf a ent) = ent := by
  unfold entriesOf
  rw [leNat_dirBuf hlen, Nat.mul_div_cancel _ (by decide : 0 < 64)]
  refine List.ext_getElem (by simp) fun i hi hi' => ?_
  rw [List.getElem_map, List.getElem_range]
  refine Eq.trans (DirEntry.ofBytes_congr fun j hj => ?_) (DirEntry.ofBytes_bytes _)
  unfold sizeofDirEntry at hj
  have hdiv : (4 + 64 * i + j - 4) / 64 = i := by omega
  have hmod : (4 + 64 * i + j - 4) % 64 = j := by omega
  unfold dirBuf
  rw [shift_apply, memcpy_in (by omega) (by omega), entriesBytes, hdiv, List.getElem?_eq_getElem hi', hmod]

theorem bytesOf_dirBuf : bytesOf (dirBuf a ent) = dirBytes ent := by
  unfold bytesOf dirBytes
  rw [leNat_dirBuf hlen]
  refine List.map_congr_left fun i hi => ?_
  have hi' := List.mem_range.mp hi
  unfold dirBuf
  rw [memcpy_in (by omega) (by omega), Nat.add_sub_cancel_left]

end Buffer

section Write
variable {a : Args} {s : St} {g : ℤ}

/-- **`dev_write_dir` on a block list** of the size it needs: the buffer is what the blocks hold. -/
theorem devWriteDir_seq {t u : St} {l l' : List BlkInfo} {ent : List DirEntry} (hm : Mounted a u.dev)
    (hop : devGetFileSeq a s g = some (l, t))
    (hgrow : growTo a t l (dirNeed a ent.length) g = some ((l'.length : ℤ), l', u)) (hseq : SeqOk a l')
    (hle : dirNeed a ent.length ≤ l'.length) :
    ∃ r s', devWriteDir a s g ent = some (r, s') ∧ Wrote a l' u s' ∧ ent.length * 64 + 4 ≤ l'.length * a.lblkSz ∧
      ∀ k < l'.length * a.lblkSz, content a s'.dev l' k = dirBuf a ent k := by
  have hL : 1024 ≤ a.lblkSz := hm.geo.le_lblkSz
  have hbytes := hseq.bytes_lt hm
  have hmul := Nat.le_mul_of_pos_right l'.length (show 0 < a.lblkSz by omega)
  have hneed : ent.length * 64 + 4 ≤ l'.length * a.lblkSz := by
    unfold dirNeed at hle
    rw [toBlkCnt_eq (by omega)] at hle
    exact (pages_le_iff (by omega)).mp (Int.ofNat_le.mp hle)
  obtain ⟨s', r, hloop, -, hw, hpage⟩ := writeDirLoop_eq hseq (dirBuf a ent) l'.length (i := 0)
    hm (by omega) (le_refl (0 : ℤ))
  refine ⟨r, s', ?_, hw, hneed, fun k hk => ?_⟩
  · unfold devWriteDir
    refine Option.bind_eq_some_iff.mpr ⟨_, hop, ?_⟩
    refine Option.bind_eq_some_iff.mpr ⟨_, hgrow, ?_⟩
    dsimp only
    rw [toSizeT_natCast (by omega)]
    exact hloop
  · unfold content
    rw [hpage, flat_store (by omega), Nat.zero_mul, Nat.zero_add, if_pos ⟨Nat.zero_le _, hk⟩, Nat.sub_zero]

theorem entriesOf_written {c : Buf} {ent : List DirEntry} {n : ℕ} (h : ∀ k < n, c k = dirBuf a ent k)
    (hn : ent.length * 64 + 4 ≤ n) (hlen : ent.length * 64 < 2 ^ 32) :
    entriesOf c = ent ∧ leNat 4 c = ent.length * 64 := by
  have hsz := leNat_dirBuf (a := a) hlen
  refine ⟨?_, (leNat_congr fun i hi => h i (by omega)).trans hsz⟩
  exact (entriesOf_congr h (by omega)).trans (entriesOf_dirBuf hlen)

/-- **`dev_write_dir` writes the entries.** -/
theorem FileOk.writeDir {cl : List ℤ} (hm : Mounted a s.dev) (hag : Agree a s.dev s.fsBitmap)
    (hsm : a.cluCnt ≤ 65535) (hok : FileOk a s g cl) (hnd : cl.Nodup) (hg0 : 0 ≤ g)
    (hgt : g < tableLen) (ent : List DirEntry) (hfits : Fits a s g (dirNeed a ent.length)) :
    ∃ r s', devWriteDir a s g ent = some (r, s') ∧ Written a g (dirNeed a ent.length) s s' ∧
      dirOf a s'.dev g = ent ∧ fileBytes a s'.dev g = dirBytes ent ∧
      (dirNeed a ent.length ≤ (nodesAt a (tab a s.dev) g).length →
        tab a s'.dev = tab a s.dev ∧ s'.fsBitmap = s.fsBitmap ∧ s'.fsTable = s.fsTable ∧
          (∀ c b, (c, b) ∉ (nodesAt a (tab a s.dev) g).map blkOf →
            data a s'.dev c b = data a s.dev c b) ∧
          (s.mapSeq g ≠ none → s'.clrsCache = s.clrsCache)) := by
  have hL : 1024 ≤ a.lblkSz := hm.geo.le_lblkSz
  obtain ⟨l, t, l', u, hop, hgrow, hle, hheld, hsame⟩ := hok.hold hm hag hsm hnd hg0 hgt hfits
  obtain ⟨clu, -, hoku, -⟩ := hheld.ok
  have hmu := hheld.onFile.mounted
  have hseq := hoku.seqOk.perm hheld.list
  have hbytes := hseq.bytes_lt hmu
  obtain ⟨r, s', hwrite, hw, hneed, hcont⟩ := devWriteDir_seq hmu hop hgrow hseq hle
  obtain ⟨hent, hsz⟩ := entriesOf_written hcont hneed (by omega)
  have hwritten := hheld.wrote hw hg0 hgt (by unfold fileSz; rw [hsz]; omega) hle
  obtain ⟨cl', -, hoks⟩ := hwritten.fileOk
  have hnodes : content a s'.dev (nodesAt a (tab a s'.dev) g) = content a s'.dev l' := by
    have hlist : l'.Perm (nodesAt a (tab a s'.dev) g) := by
      rw [hw.tabs]
      exact hheld.list
    exact (content_perm hoks.seqOk hlist s'.dev).symm
  refine ⟨r, s', hwrite, hwritten, ?_, ?_, fun hno => ?_⟩
  · unfold dirOf
    rw [hnodes]
    exact hent
  · unfold fileBytes
    rw [hnodes]
    refine Eq.trans (bytesOf_congr (c := dirBuf a ent) (n := l'.length * a.lblkSz) hcont ?_)
      (bytesOf_dirBuf (by omega))
    rw [leNat_dirBuf (by omega)]
    omega
  · obtain ⟨hdev, hbm, htab, hself⟩ := hsame hno
    have hmem := hw.mem
    rw [hw.tabs, hdev, hmem]
    refine ⟨rfl, hbm, htab, fun c b hcb => ?_, fun hseq => ?_⟩
    · have hlist := (hheld.list.map blkOf).mem_iff (a := (c, b))
      rw [hdev] at hlist
      have hdata := hw.blks c b fun hin => hcb (hlist.mp hin)
      rw [hdev] at hdata
      exact hdata
    show u.clrsCache = s.clrsCache
    rw [hself hseq]

theorem FileOk.dirNeed_le {cl : List ℤ} (hm : Mounted a s.dev) (hok : FileOk a s g cl) {n : ℕ}
    (hn : n ≤ (dirOf a s.dev g).length) : dirNeed a n ≤ (nodesAt a (tab a s.dev) g).length := by
  have hL : 1024 ≤ a.lblkSz := hm.geo.le_lblkSz
  have hsz := hok.size
  unfold dirOf entriesOf at hn
  rw [List.length_map, List.length_range] at hn
  unfold fileSz at hsz
  unfold dirNeed
  rw [toBlkCnt_eq (by omega)]
  exact Int.ofNat_le.mpr ((pages_le_iff (by omega)).mpr (by omega))

end Write

end Fcfs.Vol
