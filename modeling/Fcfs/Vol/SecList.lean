import Fcfs.Vol.Free

/-! # The second-level array on disk

From the fourteenth on, the clusters of a file stand in the first six data blocks of a cluster of
their own: a count, then the words. `dev_tbl_save_sec` writes those six blocks and nothing else
(`devTblSaveSec_eq`); `dev_tbl_load_sec` reads back the count and every word that fits
(`devTblLoadSec_eq`). -/

namespace Fcfs.Vol

open Lib.Bytes

/-- The words that fit behind the count. -/
def secCap (a : Args) : ℕ := (6 * a.lblkSz - 4) / 4

/-- The bytes of blocks 1 to 6 of a cluster. -/
def secBytes (a : Args) (d : Dev) (cid : ℤ) : Buf := fun k =>
  data a d cid (k / a.lblkSz + 1) (k % a.lblkSz)

/-- The buffer `dev_tbl_save_sec` writes. -/
def secBuf (a : Args) (c : ClrsCache) : Buf :=
  memcpy (memcpy a.junk 0 (leByte c.s1Cnt) 4) 4 (wordBytes c.s1Cl) (7 * a.lblkSz - 4)

/-- The log of writes to blocks 1 to `n` of a cluster. -/
def secLog (cid : ℤ) (n : ℕ) : List (ℤ × ℕ) := ((List.range n).map fun i => (cid, i + 1)).reverse

theorem secLog_succ (cid : ℤ) (n : ℕ) : secLog cid (n + 1) = (cid, n + 1) :: secLog cid n := by
  simp [secLog, List.range_succ]

section Save
variable {a : Args} {s : St} (hm : Mounted a s.dev) {cid : ℤ} (h0 : 0 ≤ cid) (hc : cid < a.cluCnt)
include hm h0 hc

theorem saveLoop_eq (buf : Buf) (n : ℕ) (hn : n ≤ 6) :
    ∃ d, ((List.range n).foldlM (fun s i => do
        let (_, s) ← devWriteBlock a s cid (i + 1) (shift buf (i * a.lblkSz)) a.lblkSz false
        some s) s) = some { s with dev := d } ∧
      Mounted a d ∧ tab a d = tab a s.dev ∧
      (∀ c b, data a d c b = if c = cid ∧ 1 ≤ b ∧ b ≤ n
        then cut a.lblkSz (shift buf ((b - 1) * a.lblkSz)) else data a s.dev c b) ∧
      d.log = secLog cid n ++ s.dev.log := by
  induction n with
  | zero =>
    refine ⟨s.dev, ?_, hm, rfl, fun c b => ?_, ?_⟩
    · rw [List.range_zero, List.foldlM_nil]
      rfl
    · rw [if_neg (by omega)]
    · simp [secLog]
  | succ n ih =>
    obtain ⟨d, hop, hm', ht, hd, hlog⟩ := ih (by omega)
    have hin : InVol a cid (n + 1) := ⟨h0, hc, by unfold bloksPerCluster; omega⟩
    have hw := Mounted.write_plain (s := { s with dev := d }) hm' hin (shift buf (n * a.lblkSz))
    refine ⟨putBlk a d cid (n + 1) (cut a.lblkSz (shift buf (n * a.lblkSz))), ?_,
      hm'.putBlk _ _ _, ?_, fun c b => ?_, ?_⟩
    · rw [List.range_succ, List.foldlM_append]
      refine Option.bind_eq_some_iff.mpr ⟨_, hop, ?_⟩
      rw [List.foldlM_cons]
      exact Option.bind_eq_some_iff.mpr ⟨_, Option.bind_eq_some_iff.mpr ⟨_, hw, rfl⟩, rfl⟩
    · rw [tab_putBlk hm' _ hin (by omega), ht]
    · rw [data_putBlk _ hin (by omega)]
      dsimp only
      by_cases hcb : c = cid ∧ b = n + 1
      · rw [if_pos hcb, if_pos (by omega), cut_cut, hcb.2, Nat.add_sub_cancel]
      · rw [if_neg hcb, hd]
        by_cases hcb' : c = cid ∧ 1 ≤ b ∧ b ≤ n
        · rw [if_pos hcb', if_pos (by omega)]
        · rw [if_neg hcb', if_neg (by omega)]
    · show (cid, n + 1) :: d.log = _
      rw [hlog, secLog_succ]
      rfl

/-- **`dev_tbl_save_sec` writes blocks 1 to 6 of the cluster.** -/
theorem devTblSaveSec_eq :
    ∃ d, devTblSaveSec a s cid = some (0, { s with dev := d }) ∧
      Mounted a d ∧ tab a d = tab a s.dev ∧
      (∀ c b, ¬ (c = cid ∧ 1 ≤ b ∧ b ≤ 6) → data a d c b = data a s.dev c b) ∧
      (∀ k < 6 * a.lblkSz, secBytes a d cid k = secBuf a s.clrsCache k) ∧
      d.log = secLog cid 6 ++ s.dev.log := by
  obtain ⟨d, hop, hm', ht, hd, hlog⟩ := saveLoop_eq hm h0 hc (secBuf a s.clrsCache) 6 (le_refl 6)
  have hL := hm.geo.le_lblkSz
  refine ⟨d, ?_, hm', ht, fun c b hcb => ?_, fun k hk => ?_, hlog⟩
  · unfold devTblSaveSec
    exact Option.bind_eq_some_iff.mpr ⟨_, hop, rfl⟩
  · rw [hd, if_neg hcb]
  · have hpos : 0 < a.lblkSz := lt_of_lt_of_le (by decide) hL
    have hdiv : k / a.lblkSz < 6 := Nat.div_lt_of_lt_mul (by rw [Nat.mul_comm]; exact hk)
    have hmod : k % a.lblkSz < a.lblkSz := Nat.mod_lt _ hpos
    unfold secBytes
    rw [hd, if_pos ⟨rfl, Nat.le_add_left 1 _, hdiv⟩, cut_of_lt _ hmod, shift_apply, Nat.add_sub_cancel,
      Nat.div_add_mod']

end Save

section Load
variable {a : Args} {d : Dev} (hm : Mounted a d) {cid : ℤ} (h0 : 0 ≤ cid) (hc : cid < a.cluCnt)
include hm h0 hc

theorem loadLoop_eq (n : ℕ) (hn : n ≤ 6) :
    ∃ buf, ((List.range n).foldlM (fun buf i => do
        let b ← devReadBlock a d cid (i + 1) false
        some (memcpy buf (i * a.lblkSz) b a.lblkSz)) a.junk) = some buf ∧
      ∀ k < n * a.lblkSz, buf k = secBytes a d cid k := by
  have hL := hm.geo.le_lblkSz
  have hpos : 0 < a.lblkSz := lt_of_lt_of_le (by decide) hL
  induction n with
  | zero => exact ⟨a.junk, rfl, fun k hk => by omega⟩
  | succ n ih =>
    obtain ⟨buf, hop, hbuf⟩ := ih (by omega)
    have hin : InVol a cid (n + 1) := ⟨h0, hc, by unfold bloksPerCluster; omega⟩
    refine ⟨memcpy buf (n * a.lblkSz) (data a d cid (n + 1)) a.lblkSz, ?_, fun k hk => ?_⟩
    · rw [List.range_succ, List.foldlM_append, hop]
      simp only [Option.bind_eq_bind, Option.bind_some, List.foldlM_cons, List.foldlM_nil,
        hm.read_data hin (show 1 ≤ n + 1 by omega) false]
      rfl
    · rw [Nat.succ_mul] at hk
      rcases Nat.lt_or_ge k (n * a.lblkSz) with hlt | hge
      · rw [memcpy_out (Or.inl hlt), hbuf k hlt]
      · obtain ⟨j, rfl⟩ := Nat.exists_eq_add_of_le hge
        have hdiv : (n * a.lblkSz + j) / a.lblkSz = n := by
          rw [Nat.mul_comm, Nat.mul_add_div hpos, Nat.div_eq_of_lt (by omega), Nat.add_zero]
        have hmod : (n * a.lblkSz + j) % a.lblkSz = j := by
          rw [Nat.mul_comm, Nat.mul_add_mod, Nat.mod_eq_of_lt (by omega)]
        unfold secBytes
        rw [memcpy_in hge hk, Nat.add_sub_cancel_left, hdiv, hmod]

/-- **`dev_tbl_load_sec` reads the count and the words.** -/
theorem devTblLoadSec_eq :
    ∃ w, devTblLoadSec a d cid = some (leNat 4 (secBytes a d cid), w) ∧
      ∀ j < secCap a, w j = get32 (secBytes a d cid) (4 + 4 * j) := by
  have hL : 1024 ≤ a.lblkSz := hm.geo.le_lblkSz
  obtain ⟨buf, hop, hbuf⟩ := loadLoop_eq hm h0 hc 6 (le_refl 6)
  have hcnt : leNat 4 buf = leNat 4 (secBytes a d cid) := leNat_congr fun i hi => hbuf i (by omega)
  refine ⟨fun j => get32 (cut (7 * a.lblkSz - 4) (shift buf 4)) (4 * j), ?_, fun j hj => ?_⟩
  · have hbuf' : loadSecBuf a d cid = some buf := hop
    unfold devTblLoadSec
    rw [hbuf', ← hcnt]
    rfl
  · unfold secCap at hj
    unfold get32
    refine congrArg UInt32.ofNat (leNat_congr fun i hi => ?_)
    rw [shift_apply, shift_apply, cut_of_lt _ (by omega), shift_apply, hbuf _ (by omega),
      ← Nat.add_assoc]

end Load

/-! ### Saved words -/

/-- The array stored in cluster `cid`. -/
def SecWords (a : Args) (d : Dev) (cid : ℤ) (l : List ℤ) : Prop :=
  leNat 4 (secBytes a d cid) = l.length ∧
    ∀ j < l.length, ((get32 (secBytes a d cid) (4 + 4 * j)).toNat : ℤ) = l.getD j 0

/-- **Saved words are loaded.** -/
theorem SecWords.load {a : Args} {d : Dev} {cid : ℤ} {l : List ℤ} (h : SecWords a d cid l)
    (hm : Mounted a d) (h0 : 0 ≤ cid) (hc : cid < a.cluCnt) (hlen : l.length ≤ secCap a) :
    ∃ w, devTblLoadSec a d cid = some (l.length, w) ∧ ∀ j < l.length, ((w j).toNat : ℤ) = l.getD j 0 := by
  obtain ⟨hcnt, hword⟩ := h
  obtain ⟨w, hload, hw⟩ := devTblLoadSec_eq hm h0 hc
  rw [hcnt] at hload
  exact ⟨w, hload, fun j hj => by rw [hw j (by omega), hword j hj]⟩

theorem getD_drop (l : List ℤ) (n j : ℕ) : (l.drop n).getD j 0 = l.getD (n + j) 0 := by
  rw [List.getD_eq_getElem?_getD, List.getElem?_drop, ← List.getD_eq_getElem?_getD]

theorem SecWords.congr {a : Args} {d d' : Dev} {cid : ℤ} {l : List ℤ} (h : SecWords a d cid l)
    (hd : ∀ b, 1 ≤ b → b ≤ 6 → data a d' cid b = data a d cid b) (hL : 1024 ≤ a.lblkSz)
    (hlen : l.length ≤ secCap a) : SecWords a d' cid l := by
  have hbytes : ∀ k < 6 * a.lblkSz, secBytes a d' cid k = secBytes a d cid k := by
    intro k hk
    have hdiv : k / a.lblkSz < 6 := Nat.div_lt_of_lt_mul (by rw [Nat.mul_comm]; exact hk)
    unfold secBytes
    rw [hd _ (Nat.le_add_left 1 _) hdiv]
  unfold secCap at hlen
  refine ⟨?_, fun j hj => ?_⟩
  · rw [← h.1]
    exact leNat_congr fun i hi => hbytes i (by omega)
  · rw [← h.2 j hj, get32_congr fun i hi => hbytes (4 + 4 * j + i) (by omega)]

theorem secWords_of_secBuf {a : Args} {d : Dev} {cid : ℤ} {c : ClrsCache} {l : List ℤ}
    (hL : 1024 ≤ a.lblkSz) (h31 : a.lblkSz < 2 ^ 31)
    (hb : ∀ k < 6 * a.lblkSz, secBytes a d cid k = secBuf a c k)
    (hcnt : c.s1Cnt = l.length) (hlen : l.length ≤ secCap a)
    (hw : ∀ j < l.length, ((c.s1Cl j).toNat : ℤ) = l.getD j 0) : SecWords a d cid l := by
  unfold secCap at hlen
  refine ⟨?_, fun j hj => ?_⟩
  · have hcongr : leNat 4 (secBytes a d cid) = leNat 4 (leByte c.s1Cnt) := by
      refine leNat_congr fun i hi => ?_
      rw [hb i (by omega), secBuf, memcpy_out (by omega), memcpy_in (by omega) (by omega), Nat.sub_zero]
    rw [hcongr, leNat_leByte, hcnt]
    refine Nat.mod_eq_of_lt ?_
    norm_num
    omega
  · have hword : get32 (secBytes a d cid) (4 + 4 * j) = c.s1Cl j := by
      refine get32_eq fun i hi => ?_
      have hdiv : (4 + 4 * j + i - 4) / 4 = j := by omega
      have hmod : (4 + 4 * j + i - 4) % 4 = i := by omega
      rw [hb _ (by omega), secBuf, memcpy_in (by omega) (by omega), wordBytes, hdiv, hmod]
    rw [hword, hw j hj]

end Fcfs.Vol
