import Fcfs.Vol.Agree

/-! # What the allocator hands out

On a volume whose bitmap agrees with its tables, the free blocks of clusters 1 to `clu_cnt - 1` in
the order of their addresses are `freeBlks`, and `dev_free_blocks` returns the first of them, as
many as are asked for (`devFreeBlocks_eq`). A cluster that is wholly free is found as long as there
is one (`devFullFreeCluster_eq`). Both searches only read, and rely on less than a mounted volume
(`BitsOk`). -/

namespace Fcfs.Vol

/-- The numbers of the blocks whose entries carry `fid`. -/
def ownBids (e : Fin 7 → BlkEnt) (fid : ℤ) : List ℕ :=
  ((List.finRange 7).filter fun i => u32 fid == (e i).fid).map fun i => i.val + 1

theorem devGetBlocks_ctable (a : Args) (d : Dev) (cid fid : ℤ) :
    devGetBlocks (ctable a d cid) fid = ownBids (tab a d cid) fid := rfl

theorem mem_ownBids {e : Fin 7 → BlkEnt} {fid : ℤ} {b : ℕ} :
    b ∈ ownBids e fid ↔ ∃ i : Fin 7, b = i.val + 1 ∧ (e i).fid = u32 fid := by
  unfold ownBids
  simp only [List.mem_map, List.mem_filter, List.mem_finRange, true_and, beq_iff_eq]
  constructor
  · rintro ⟨i, hi, rfl⟩
    exact ⟨i, rfl, hi.symm⟩
  · rintro ⟨i, rfl, hi⟩
    exact ⟨i, hi.symm, rfl⟩

theorem nodup_ownBids (e : Fin 7 → BlkEnt) (fid : ℤ) : (ownBids e fid).Nodup := by
  refine List.Nodup.map (fun i j hij => ?_) ((List.nodup_finRange 7).filter _)
  exact Fin.ext (by simpa using hij)

theorem bid_of_mem {e : Fin 7 → BlkEnt} {fid : ℤ} {b : ℕ} (h : b ∈ ownBids e fid) : 1 ≤ b ∧ b ≤ 7 := by
  obtain ⟨i, rfl, -⟩ := mem_ownBids.mp h
  omega

theorem ownBids_free_nil {e : Fin 7 → BlkEnt} : ownBids e 0 = [] ↔ taken e = true := by
  unfold taken
  rw [decide_eq_true_iff, List.eq_nil_iff_forall_not_mem]
  constructor
  · intro h i hi
    exact h (i.val + 1) (mem_ownBids.mpr ⟨i, rfl, hi⟩)
  · intro h b hb
    obtain ⟨i, -, hi⟩ := mem_ownBids.mp hb
    exact h i hi

/-- Every entry of the table is free. -/
def AllFree (e : Fin 7 → BlkEnt) : Prop := ∀ i, (e i).fid = 0

theorem ownBids_length_eq {e : Fin 7 → BlkEnt} : (ownBids e 0).length = 7 ↔ AllFree e := by
  have h7 : (List.finRange 7).length = 7 := by simp
  have hlen : (ownBids e 0).length = ((List.finRange 7).filter fun i => u32 0 == (e i).fid).length := by
    simp [ownBids]
  have hall : ((List.finRange 7).filter fun i => u32 0 == (e i).fid).length =
      (List.finRange 7).length ↔ ∀ i ∈ List.finRange 7, (u32 0 == (e i).fid) = true :=
    List.length_filter_eq_length_iff
  rw [hlen]
  rw [h7] at hall
  rw [hall]
  constructor
  · intro h i
    exact (beq_iff_eq.mp (h i (List.mem_finRange i))).symm
  · intro h i _
    exact beq_iff_eq.mpr (h i).symm

/-! ### The next cluster with a free block -/

section Next
variable {a : Args} {bm : ℕ → UInt8}

/-- From a cluster that is not full, the next one that is not full is found if there is one. -/
theorem exists_next {start c : ℤ} (h0 : 0 ≤ start) (hstart : full bm start = false)
    (hlt : start < c) (hc : c / 8 < a.cluCnt) (hclear : full bm c = false) :
    ∃ m, devFreeClusterFrom a bm start = m ∧ start < m ∧ m ≤ c ∧ full bm m = false ∧
      ∀ c', start < c' → c' < m → full bm c' = true := by
  have hex : ∃ k : ℕ, full bm (start + 1 + k) = false :=
    ⟨(c - start - 1).toNat, by rw [show start + 1 + ((c - start - 1).toNat : ℤ) = c by omega]; exact hclear⟩
  classical
  have hmin := Nat.find_spec hex
  have hle : Nat.find hex ≤ (c - start - 1).toNat := Nat.find_min' hex (by
    rw [show start + 1 + ((c - start - 1).toNat : ℤ) = c by omega]; exact hclear)
  have hbelow : ∀ c', start < c' → c' < start + 1 + (Nat.find hex : ℤ) → full bm c' = true := by
    intro c' hlt' hc'
    have hnot := Nat.find_min hex (m := (c' - start - 1).toNat) (by omega)
    rw [show start + 1 + ((c' - start - 1).toNat : ℤ) = c' by omega] at hnot
    simpa using hnot
  exact ⟨start + 1 + (Nat.find hex : ℤ),
    devFreeClusterFrom_eq h0 hstart (by omega) (by omega) hmin hbelow, by omega, by omega, hmin,
    hbelow⟩

end Next

/-! ### Wholly free clusters -/

/-- **What the searches rely on**: every cluster table can be read, its bit says whether it has an
entry left, and cluster 0 has one. -/
structure BitsOk (a : Args) (d : Dev) (bm : ℕ → UInt8) : Prop where
  reads : ∀ c : ℤ, 0 ≤ c → c < a.cluCnt → devReadCtable a d c = some (ctable a d c)
  bit : ∀ c : ℤ, 0 ≤ c → c < a.cluCnt → full bm c = taken (tab a d c)
  root : full bm 0 = false

theorem Agree.bitsOk {a : Args} {d : Dev} {bm : ℕ → UInt8} (hag : Agree a d bm) (hm : Mounted a d)
    (hclu : 0 < a.cluCnt) : BitsOk a d bm := by
  refine ⟨fun c h0 hc => hm.devReadCtable_eq h0 hc, hag.bit, ?_⟩
  rw [hag.bit 0 (le_refl 0) (by omega)]
  exact taken_of_root hag.root

section Volume
variable {a : Args} {d : Dev} {bm : ℕ → UInt8} (hb : BitsOk a d bm)
include hb

theorem full_of_allFree {c : ℤ} (h0 : 0 ≤ c) (hc : c < a.cluCnt) (h : AllFree (tab a d c)) :
    full bm c = false := by
  rw [hb.bit c h0 hc]
  exact taken_of_root h

/-- The loop of `dev_full_free_cluster` stops at the first wholly free cluster behind `start`. -/
theorem fullFreeLoop_eq (n : ℕ) : ∀ {start c : ℤ}, 0 ≤ start → full bm start = false → start < c →
    c < a.cluCnt → AllFree (tab a d c) → c - start ≤ n →
    ∃ m, fullFreeLoop a d bm n start = some m ∧ start < m ∧ m < a.cluCnt ∧ AllFree (tab a d m) ∧
      ∀ c', start < c' → c' < m → ¬ AllFree (tab a d c') := by
  induction n with
  | zero =>
    intro start c h0 _ hlt _ _ hn
    omega
  | succ n ih =>
    intro start c h0 hstart hlt hc hfree hn
    have hclear := full_of_allFree hb (by omega) hc hfree
    obtain ⟨m, hnext, hm1, hm2, hm3, hm4⟩ := exists_next (a := a) h0 hstart hlt (by omega) hclear
    have hskip : ∀ c', start < c' → c' < m → ¬ AllFree (tab a d c') := by
      intro c' hlt' hcm hall
      have hset := hm4 c' hlt' hcm
      rw [full_of_allFree hb (by omega) (by omega) hall] at hset
      cases hset
    unfold fullFreeLoop
    dsimp only
    rw [hnext, hb.reads m (by omega) (by omega)]
    simp only [Option.bind_eq_bind, Option.bind_some]
    rw [devGetBlocks_ctable]
    by_cases hall : AllFree (tab a d m)
    · rw [if_pos (ownBids_length_eq.mpr hall)]
      exact ⟨m, rfl, hm1, by omega, hall, hskip⟩
    · have hne : m ≠ c := by rintro rfl; exact hall hfree
      rw [if_neg (fun h => hall (ownBids_length_eq.mp h))]
      obtain ⟨k, hk, hk1, hk2, hk3, hk4⟩ := ih (by omega) hm3 (by omega) hc hfree (by omega)
      refine ⟨k, hk, by omega, hk2, hk3, fun c' hlt' hck => ?_⟩
      rcases lt_trichotomy c' m with hcm | rfl | hmc
      · exact hskip c' hlt' hcm
      · exact hall
      · exact hk4 c' hmc hck

/-- **`dev_full_free_cluster` finds the first wholly free cluster behind the root's**, if there is
one. -/
theorem devFullFreeCluster_least {c : ℤ} (h1 : 1 ≤ c) (hc : c < a.cluCnt)
    (hfree : AllFree (tab a d c)) :
    ∃ m, devFullFreeCluster a d bm = some m ∧ 1 ≤ m ∧ m < a.cluCnt ∧ AllFree (tab a d m) ∧
      ∀ c', 1 ≤ c' → c' < m → ¬ AllFree (tab a d c') := by
  obtain ⟨m, hm1, hm2, hm3, hm4, hm5⟩ := fullFreeLoop_eq hb (8 * a.cluCnt + 2) (le_refl 0) hb.root
    (show 0 < c by omega) hc hfree (by omega)
  exact ⟨m, hm1, by omega, hm3, hm4, fun c' h1' hlt => hm5 c' (by omega) hlt⟩

end Volume

/-- **`dev_full_free_cluster` finds a wholly free cluster behind the root's**, if there is one. -/
theorem devFullFreeCluster_eq {a : Args} {d : Dev} {bm : ℕ → UInt8} (hm : Mounted a d)
    (hag : Agree a d bm) {c : ℤ} (h1 : 1 ≤ c) (hc : c < a.cluCnt) (hfree : AllFree (tab a d c)) :
    ∃ m, devFullFreeCluster a d bm = some m ∧ 1 ≤ m ∧ m < a.cluCnt ∧ AllFree (tab a d m) := by
  obtain ⟨m, hop, hm1, hmc, hall, -⟩ :=
    devFullFreeCluster_least (hag.bitsOk hm (by omega)) h1 hc hfree
  exact ⟨m, hop, hm1, hmc, hall⟩

/-! ### Free blocks -/

/-- The blocks of a cluster that carry `fid`. -/
def clusterBids (T : ℤ → Fin 7 → BlkEnt) (fid c : ℤ) : List (ℤ × ℕ) :=
  (ownBids (T c) fid).map fun b => (c, b)

/-- The free blocks of clusters 1 to `k`, in order. -/
def freeUpTo (T : ℤ → Fin 7 → BlkEnt) (k : ℕ) : List (ℤ × ℕ) :=
  (List.range k).flatMap fun c : ℕ => clusterBids T 0 (c + 1)

/-- **The free blocks of the volume**: those of the clusters behind the root's. -/
def freeBlks (a : Args) (T : ℤ → Fin 7 → BlkEnt) : List (ℤ × ℕ) := freeUpTo T (a.cluCnt - 1)

/-- A block as a node of a list without numbers. -/
def node0 (p : ℤ × ℕ) : BlkInfo := ⟨p.1, p.2, 0⟩

theorem freeUpTo_succ (T : ℤ → Fin 7 → BlkEnt) (k : ℕ) :
    freeUpTo T (k + 1) = freeUpTo T k ++ clusterBids T 0 (k + 1) := by
  unfold freeUpTo
  rw [List.range_succ, List.flatMap_append, List.flatMap_singleton]

theorem freeUpTo_of_full {T : ℤ → Fin 7 → BlkEnt} {k m : ℕ} (hkm : k ≤ m)
    (h : ∀ c : ℕ, k < c → c ≤ m → ownBids (T c) 0 = []) : freeUpTo T m = freeUpTo T k := by
  induction m with
  | zero => rw [Nat.le_zero.mp hkm]
  | succ m ih =>
    rcases Nat.lt_or_ge m k with hlt | hge
    · rw [show k = m + 1 by omega]
    · have hnil : clusterBids T 0 ((m : ℤ) + 1) = [] := by
        have := h (m + 1) (by omega) (le_refl _)
        unfold clusterBids
        rw [show ((m : ℤ) + 1) = ((m + 1 : ℕ) : ℤ) by omega, this, List.map_nil]
      rw [freeUpTo_succ, hnil, List.append_nil, ih hge fun c hc hcm => h c hc (by omega)]

theorem freeUpTo_prefix (T : ℤ → Fin 7 → BlkEnt) {k m : ℕ} (h : k ≤ m) :
    freeUpTo T k <+: freeUpTo T m := by
  induction m with
  | zero => rw [Nat.le_zero.mp h]
  | succ m ih =>
    rcases Nat.lt_or_ge m k with hlt | hge
    · rw [show k = m + 1 by omega]
    · rw [freeUpTo_succ]
      exact (ih hge).trans (List.prefix_append _ _)

theorem mem_freeUpTo {T : ℤ → Fin 7 → BlkEnt} {k : ℕ} {c : ℤ} {b : ℕ} :
    (c, b) ∈ freeUpTo T k ↔ 1 ≤ c ∧ c ≤ k ∧ b ∈ ownBids (T c) 0 := by
  unfold freeUpTo clusterBids
  simp only [List.mem_flatMap, List.mem_range, List.mem_map, Prod.mk.injEq]
  constructor
  · rintro ⟨i, hi, b', hb', rfl, rfl⟩
    exact ⟨by omega, by omega, hb'⟩
  · rintro ⟨h1, hk, hb⟩
    refine ⟨(c - 1).toNat, by omega, b, ?_, by omega, rfl⟩
    rw [show (((c - 1).toNat : ℕ) : ℤ) + 1 = c by omega]
    exact hb

theorem nodup_freeUpTo (T : ℤ → Fin 7 → BlkEnt) (k : ℕ) : (freeUpTo T k).Nodup := by
  induction k with
  | zero => exact List.nodup_nil
  | succ k ih =>
    rw [freeUpTo_succ]
    refine ih.append ((nodup_ownBids _ _).map fun b b' h => (Prod.mk.inj h).2) ?_
    rintro ⟨c, b⟩ hcb hcb'
    obtain ⟨-, hck, -⟩ := mem_freeUpTo.mp hcb
    obtain ⟨b', -, hbc⟩ := List.mem_map.mp hcb'
    have hceq := (Prod.mk.inj hbc).1
    omega

theorem cluCnt_pos_of_free {a : Args} {T : ℤ → Fin 7 → BlkEnt} (h : 0 < (freeBlks a T).length) :
    0 < a.cluCnt := by
  by_contra hno
  have hnil : freeBlks a T = [] := by
    unfold freeBlks
    rw [show a.cluCnt - 1 = 0 by omega]
    rfl
  rw [hnil] at h
  exact absurd h (lt_irrefl 0)

section Volume
variable {a : Args} {d : Dev} {bm : ℕ → UInt8} (hb : BitsOk a d bm)
include hb

/-- The loop of `dev_free_blocks`, once everything up to `oldCid` has been taken. -/
theorem freeBlocksLoop_eq {count : ℕ} (hcount : count ≤ (freeBlks a (tab a d)).length) (n : ℕ) :
    ∀ {old : ℕ}, old < a.cluCnt → full bm old = false → count ≤ (freeUpTo (tab a d) old).length + n →
    freeBlocksLoop a d bm count n old (((freeUpTo (tab a d) old).take count).map node0) =
      some (((freeBlks a (tab a d)).take count).map node0) := by
  have hpre : ∀ {old : ℕ}, old < a.cluCnt → count ≤ (freeUpTo (tab a d) old).length →
      (freeUpTo (tab a d) old).take count = (freeBlks a (tab a d)).take count := by
    intro old hold hle
    obtain ⟨t, ht⟩ := freeUpTo_prefix (tab a d) (show old ≤ a.cluCnt - 1 by omega)
    unfold freeBlks
    rw [← ht, List.take_append_of_le_length hle]
  induction n with
  | zero =>
    intro old hold _ hn
    unfold freeBlocksLoop
    rw [hpre hold (by omega), if_neg (by rw [List.length_map, List.length_take]; omega)]
  | succ n ih =>
    intro old hold hclear hn
    unfold freeBlocksLoop
    dsimp only
    by_cases hlen : count ≤ (freeUpTo (tab a d) old).length
    · rw [if_neg (by rw [List.length_map, List.length_take]; omega), hpre hold hlen]
    · have hex : ∃ c : ℕ, old < c ∧ c < a.cluCnt ∧ full bm c = false := by
        by_contra hno
        have hfull : ∀ c : ℕ, old < c → c ≤ a.cluCnt - 1 → ownBids (tab a d c) 0 = [] := by
          intro c hc hcn
          rw [ownBids_free_nil, ← hb.bit c (by omega) (by omega)]
          by_contra hne
          exact hno ⟨c, hc, by omega, by simpa using hne⟩
        have heq := freeUpTo_of_full (show old ≤ a.cluCnt - 1 by omega) hfull
        unfold freeBlks at hcount
        rw [heq] at hcount
        omega
      obtain ⟨c, hlt, hc, hcc⟩ := hex
      obtain ⟨m, hnext, hm1, hm2, hm3, hm4⟩ := exists_next (a := a) (show (0 : ℤ) ≤ old by omega) hclear
        (show (old : ℤ) < c by omega) (by omega) hcc
      obtain ⟨k, rfl⟩ := Int.eq_ofNat_of_zero_le (show 0 ≤ m by omega)
      have hbids : ownBids (tab a d k) 0 ≠ [] := by
        intro hnil
        rw [ownBids_free_nil, ← hb.bit k (by omega) (by omega)] at hnil
        exact absurd (hnil.symm.trans hm3) (by simp)
      have hstep : freeUpTo (tab a d) k = freeUpTo (tab a d) old ++ clusterBids (tab a d) 0 k := by
        obtain ⟨j, rfl⟩ : ∃ j, k = j + 1 := ⟨k - 1, by omega⟩
        rw [freeUpTo_succ, freeUpTo_of_full (show old ≤ j by omega) fun c' hc' hcj => ?_]
        · rfl
        · rw [ownBids_free_nil, ← hb.bit c' (by omega) (by omega)]
          exact hm4 c' (by omega) (by omega)
      have hpos : 0 < (ownBids (tab a d k) 0).length := List.length_pos_iff.mpr hbids
      have htake : ((ownBids (tab a d k) 0).take (count - (freeUpTo (tab a d) old).length)) ≠ [] := by
        rw [← List.length_pos_iff, List.length_take]
        omega
      have hacc : ((freeUpTo (tab a d) old).take count).map node0 ++
          ((ownBids (tab a d k) 0).take (count - (freeUpTo (tab a d) old).length)).map
            (fun b => (⟨k, b, 0⟩ : BlkInfo)) = ((freeUpTo (tab a d) k).take count).map node0 := by
        rw [hstep, List.take_append, List.map_append]
        congr 1
        unfold clusterBids
        rw [← List.map_take, List.map_map]
        rfl
      rw [if_pos (by rw [List.length_map, List.length_take]; omega), hnext,
        hb.reads k (by omega) (by omega)]
      simp only [Option.bind_eq_bind, Option.bind_some]
      rw [devGetBlocks_ctable]
      have hlen' : (((freeUpTo (tab a d) old).take count).map node0).length =
          (freeUpTo (tab a d) old).length := by
        rw [List.length_map, List.length_take]
        omega
      rw [hlen', if_neg htake]
      show freeBlocksLoop a d bm count n k _ = _
      have hl : (freeUpTo (tab a d) old).length + (ownBids (tab a d k) 0).length =
          (freeUpTo (tab a d) k).length := by
        rw [hstep, List.length_append, clusterBids, List.length_map]
      refine Eq.trans (congrArg _ hacc) (ih (by omega) hm3 (by omega))

/-- **`dev_free_blocks` returns the first free blocks**, if there are enough. -/
theorem devFreeBlocks_first {count : ℕ} (hpos : 1 ≤ count)
    (hcount : count ≤ (freeBlks a (tab a d)).length) :
    devFreeBlocks a d bm count =
      some (((freeBlks a (tab a d)).take count).map node0, count) := by
  have hclu : 0 < a.cluCnt := cluCnt_pos_of_free (hpos.trans hcount)
  have hloop := freeBlocksLoop_eq hb hcount count hclu hb.root (by omega)
  unfold devFreeBlocks
  rw [show freeUpTo (tab a d) 0 = [] from rfl, List.take_nil, List.map_nil] at hloop
  simp only [Option.bind_eq_bind]
  rw [show ((0 : ℕ) : ℤ) = 0 from rfl] at hloop
  rw [hloop, Option.bind_some, if_neg (by omega), List.length_map, List.length_take,
    Nat.min_eq_left hcount]

end Volume

/-- **`dev_free_blocks` returns the first free blocks of the volume**, if there are enough. -/
theorem devFreeBlocks_eq {a : Args} {d : Dev} {bm : ℕ → UInt8} (hm : Mounted a d)
    (hag : Agree a d bm) {count : ℕ} (hpos : 1 ≤ count)
    (hcount : count ≤ (freeBlks a (tab a d)).length) :
    devFreeBlocks a d bm count =
      some (((freeBlks a (tab a d)).take count).map node0, count) :=
  devFreeBlocks_first (hag.bitsOk hm (cluCnt_pos_of_free (hpos.trans hcount))) hpos hcount

end Fcfs.Vol
