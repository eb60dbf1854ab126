import Fcfs.Vol.Capacity
import Fcfs.Vol.Sound
import Mathlib.Data.Set.Card

/-! # Free blocks and free clusters are found in order

`dev_free_blocks` takes the free blocks behind the root's cluster in the order of their addresses
and skips none (`devFreeBlocks_sound`). `dev_full_free_cluster` returns the first cluster behind the
root's without a used block, so that claiming it takes no block from a file
(`devFullFreeCluster_sound`). -/

namespace Fcfs.Vol

/-! ### Blocks -/

/-- A free block of a cluster behind the root's. -/
def FreeBlk (a : Args) (T : ℤ → Fin 7 → BlkEnt) (p : ℤ × ℕ) : Prop :=
  (1 ≤ p.1 ∧ p.1 < a.cluCnt) ∧ ∃ i : Fin 7, p.2 = i.val + 1 ∧ (T p.1 i).fid = 0

/-- The order of blocks by cluster and number. -/
def Before (p q : ℤ × ℕ) : Prop := p.1 < q.1 ∨ p.1 = q.1 ∧ p.2 < q.2

/-- **The first free blocks, `count` of them**: in order, and without a free block left out. -/
structure FirstBlks (a : Args) (T : ℤ → Fin 7 → BlkEnt) (count : ℕ) (l : List BlkInfo) : Prop where
  length : l.length = count
  nodup : (l.map blkOf).Nodup
  ordered : (l.map blkOf).Pairwise Before
  free : ∀ b ∈ l, FreeBlk a T (blkOf b)
  range : ∀ b ∈ l, 1 ≤ b.bid ∧ b.bid ≤ 7
  num : ∀ b ∈ l, b.num = 0
  first : ∀ b ∈ l, ∀ p, FreeBlk a T p → Before p (blkOf b) → p ∈ l.map blkOf

section Blocks
variable {a : Args} {T : ℤ → Fin 7 → BlkEnt}

theorem Before.asymm {p q : ℤ × ℕ} (h : Before p q) : ¬ Before q p := by
  unfold Before at *
  omega

theorem mem_freeBlks {p : ℤ × ℕ} : p ∈ freeBlks a T ↔ FreeBlk a T p := by
  obtain ⟨c, b⟩ := p
  have h0 : u32 0 = 0 := rfl
  unfold freeBlks FreeBlk
  rw [mem_freeUpTo, mem_ownBids, h0]
  constructor
  · rintro ⟨h1, hc, i, hi, hfid⟩
    exact ⟨⟨h1, by simp only; omega⟩, i, hi, hfid⟩
  · rintro ⟨⟨h1, hc⟩, i, hi, hfid⟩
    simp only at h1 hc
    exact ⟨h1, by omega, i, hi, hfid⟩

theorem sorted_ownBids (e : Fin 7 → BlkEnt) (fid : ℤ) : (ownBids e fid).Pairwise (· < ·) := by
  unfold ownBids
  rw [List.pairwise_map]
  refine List.Pairwise.imp (fun hlt => ?_) (List.Pairwise.filter _ (List.sortedLT_finRange 7).pairwise)
  omega

theorem ordered_freeUpTo (T : ℤ → Fin 7 → BlkEnt) (k : ℕ) : (freeUpTo T k).Pairwise Before := by
  induction k with
  | zero => exact List.Pairwise.nil
  | succ k ih =>
    rw [freeUpTo_succ, List.pairwise_append]
    refine ⟨ih, ?_, ?_⟩
    · unfold clusterBids
      rw [List.pairwise_map]
      exact (sorted_ownBids _ _).imp fun hlt => Or.inr ⟨rfl, hlt⟩
    · rintro ⟨c, b⟩ hcb q hq
      obtain ⟨-, hck, -⟩ := mem_freeUpTo.mp hcb
      obtain ⟨b', -, rfl⟩ := List.mem_map.mp hq
      exact Or.inl (by simp only; omega)

/-- The free blocks of the volume are as many as are listed. -/
theorem ncard_freeBlk : {p | FreeBlk a T p}.ncard = (freeBlks a T).length := by
  have hset : {p | FreeBlk a T p} = ((freeBlks a T).toFinset : Set (ℤ × ℕ)) := by
    ext p
    simp [mem_freeBlks]
  have hnd : (freeBlks a T).Nodup := nodup_freeUpTo _ _
  rw [hset, Set.ncard_coe_finset, List.toFinset_card_of_nodup hnd]

/-- What stands in front of an element of the beginning of a sorted list stands in the beginning. -/
theorem mem_take_of_before {l : List (ℤ × ℕ)} (hl : l.Pairwise Before) {n : ℕ} {p q : ℤ × ℕ}
    (hq : q ∈ l.take n) (hp : p ∈ l) (hpq : Before p q) : p ∈ l.take n := by
  rw [← List.take_append_drop n l] at hl hp
  refine (List.mem_append.mp hp).resolve_right fun hdrop => ?_
  exact hpq.asymm ((List.pairwise_append.mp hl).2.2 q hq p hdrop)

theorem firstBlks_take {count : ℕ} (h : count ≤ (freeBlks a T).length) :
    FirstBlks a T count (((freeBlks a T).take count).map node0) := by
  have hmap : (((freeBlks a T).take count).map node0).map blkOf = (freeBlks a T).take count := by
    rw [List.map_map]
    exact List.map_id _
  have hmem : ∀ b ∈ ((freeBlks a T).take count).map node0, blkOf b ∈ (freeBlks a T).take count :=
    fun b hb => hmap ▸ List.mem_map_of_mem hb
  have hfree : ∀ b ∈ ((freeBlks a T).take count).map node0, FreeBlk a T (blkOf b) := fun b hb =>
    mem_freeBlks.mp (List.mem_of_mem_take (hmem b hb))
  have hord : (freeBlks a T).Pairwise Before := ordered_freeUpTo _ _
  refine ⟨?_, ?_, ?_, hfree, fun b hb => ?_, fun b hb => ?_, fun b hb p hp hpb => ?_⟩
  · rw [List.length_map, List.length_take, Nat.min_eq_left h]
  · rw [hmap]
    exact (nodup_freeUpTo _ _).sublist (List.take_sublist _ _)
  · rw [hmap]
    exact hord.sublist (List.take_sublist _ _)
  · obtain ⟨-, i, hi, -⟩ := hfree b hb
    simp only [blkOf] at hi
    omega
  · obtain ⟨q, -, rfl⟩ := List.mem_map.mp hb
    rfl
  · rw [hmap]
    exact mem_take_of_before hord (hmem b hb) (mem_freeBlks.mpr hp) hpb

/-- **`dev_free_blocks` finds the first free blocks**, as many as it is asked for, whenever there
are as many. It changes nothing. -/
theorem devFreeBlocks_sound {d : Dev} {bm : ℕ → UInt8} (hb : BitsOk a d bm) {count : ℕ}
    (hpos : 1 ≤ count) (hcount : count ≤ {p | FreeBlk a (tab a d) p}.ncard) :
    ∃ l, devFreeBlocks a d bm count = some (l, count) ∧ FirstBlks a (tab a d) count l := by
  rw [ncard_freeBlk] at hcount
  exact ⟨_, devFreeBlocks_first hb hpos hcount, firstBlks_take hcount⟩

end Blocks

theorem bitsOk_sevenFresh : BitsOk sevenArgs sevenFresh.dev sevenFresh.fsBitmap :=
  (inv_of_fresh mounted_sevenFresh fresh_sevenFresh).agree.bitsOk mounted_sevenFresh
    (by simp [cluCnt_sevenArgs])

theorem length_freeBlks_sevenFresh :
    (freeBlks sevenArgs (tab sevenArgs sevenFresh.dev)).length = 42 := by
  rw [sevenFresh, freeBlks_sevenSt]
  rfl

/-- Ten blocks of a formatted volume. -/
theorem devFreeBlocks_ten : ∃ l,
    devFreeBlocks sevenArgs sevenFresh.dev sevenFresh.fsBitmap 10 = some (l, 10) ∧
      FirstBlks sevenArgs (tab sevenArgs sevenFresh.dev) 10 l :=
  devFreeBlocks_sound bitsOk_sevenFresh (by simp)
    (by rw [ncard_freeBlk, length_freeBlks_sevenFresh]; simp)

/-! ### Clusters -/

/-- **The first cluster behind the root's without a used block.** -/
structure LeastFree (a : Args) (T : ℤ → Fin 7 → BlkEnt) (m : ℤ) : Prop where
  pos : 1 ≤ m
  lt : m < a.cluCnt
  free : AllFree (T m)
  least : ∀ c, 1 ≤ c → c < m → ¬ AllFree (T c)

/-- **What claiming a cluster does**: it is taken for no file, and every file and the root keep
their blocks. -/
structure ClaimedOnly (a : Args) (m : ℤ) (s s' : St) : Prop where
  entries : ∀ i, (tab a s'.dev m i).fid = u32 (-1)
  bit : full s'.fsBitmap m = true
  others : ∀ c, c ≠ m → tab a s'.dev c = tab a s.dev c
  contents : data a s'.dev = data a s.dev
  files : ∀ f : ℤ, 0 ≤ f → f < tableLen → nodesAt a (tab a s'.dev) f = nodesAt a (tab a s.dev) f

section Clusters
variable {a : Args} {s : St}

theorem nodesOf_nil {e : Fin 7 → BlkEnt} {f c : ℤ} (h : ∀ i, (e i).fid ≠ u32 f) :
    nodesOf e f c = [] := by
  refine List.eq_nil_iff_forall_not_mem.mpr fun b hb => ?_
  obtain ⟨-, i, -, hfid, -⟩ := mem_nodesOf.mp hb
  exact h i hfid

/-- No file has a block in a cluster that was free and is claimed. -/
theorem nodesAt_claim {T : ℤ → Fin 7 → BlkEnt} {m : ℤ} (h1 : 1 ≤ m) (hfree : AllFree (T m)) {f : ℤ}
    (h0 : 0 ≤ f) (hf : f < tableLen) :
    nodesAt a (Function.update T m claimed) f = nodesAt a T f := by
  by_cases hz : f = 0
  · subst hz
    rw [nodesAt_root, nodesAt_root, Function.update_of_ne (by omega)]
  · obtain ⟨hne, hneg⟩ := u32_fid (show 0 < f by omega) hf
    refine List.flatMap_congr fun c _ => ?_
    by_cases hc : c = m
    · rw [hc, Function.update_self, nodesOf_nil fun i heq => hneg heq.symm,
        nodesOf_nil fun i heq => hne (heq.symm.trans (hfree i))]
    · rw [Function.update_of_ne hc]

theorem claimedOnly_of (hm : Mounted a s.dev) {m : ℤ} (hl : LeastFree a (tab a s.dev) m) :
    ∃ r s', devClustClaim a s m = some (r, s') ∧ ClaimedOnly a m s s' := by
  obtain ⟨d, bm, hop, -, ht, hd, -, hbit⟩ :=
    devClustClaim_eq hm (show 0 ≤ m by have := hl.pos; omega) hl.lt
  refine ⟨_, _, hop, fun i => ?_, ?_, fun c hc => ?_, hd, fun f h0 hf => ?_⟩
  · rw [ht, Function.update_self]
  · rw [hbit, Function.update_self]
  · rw [ht, Function.update_of_ne hc]
  · rw [ht]
    exact nodesAt_claim hl.pos hl.free h0 hf

/-- **`dev_full_free_cluster` returns the first wholly free cluster behind the root's**, if there is
one, and claiming it takes no block from a file or from the root. -/
theorem devFullFreeCluster_sound (hb : BitsOk a s.dev s.fsBitmap) (hroom : Room a s.dev) :
    ∃ m, devFullFreeCluster a s.dev s.fsBitmap = some m ∧ LeastFree a (tab a s.dev) m ∧
      (Mounted a s.dev → ∃ r s', devClustClaim a s m = some (r, s') ∧ ClaimedOnly a m s s') := by
  obtain ⟨c, h1, hc, hfree⟩ := hroom
  obtain ⟨m, hop, hm1, hmc, hall, hleast⟩ := devFullFreeCluster_least hb h1 hc hfree
  have hl : LeastFree a (tab a s.dev) m := ⟨hm1, hmc, hall, hleast⟩
  exact ⟨m, hop, hl, fun hm => claimedOnly_of hm hl⟩

end Clusters

/-- File 1 has clusters 1 and 2, and file 2 three blocks of cluster 3. -/
def filledTab (c : ℕ) (i : Fin 7) : BlkEnt :=
  if c = 0 then ⟨0, UInt32.ofNat i⟩
  else if c ≤ 2 then ⟨1, UInt32.ofNat (7 * (c - 1) + i)⟩
  else if c = 3 ∧ i.val < 3 then ⟨2, UInt32.ofNat i⟩
  else ⟨0, 0⟩

/-- Their entries in the table. -/
def filledEntry (f : ℤ) : TableEntry :=
  if f = 1 then ⟨1, fun i => if i = 0 then 1 else if i = 1 then 2 else 0⟩
  else if f = 2 then ⟨1, fun i => if i = 0 then 3 else 0⟩
  else TableEntry.zero

/-- A volume with full and partly filled clusters in front. -/
def sevenFilled : St := sevenSt filledTab (fun _ _ _ => 0) 0b01100000 (rootAnd filledEntry)

/-- Cluster 4 is the first to claim. -/
theorem devFullFreeCluster_sevenFilled : ∃ m r s',
    devFullFreeCluster sevenArgs sevenFilled.dev sevenFilled.fsBitmap = some m ∧ m = 4 ∧
      LeastFree sevenArgs (tab sevenArgs sevenFilled.dev) m ∧
      devClustClaim sevenArgs sevenFilled m = some (r, s') ∧ ClaimedOnly sevenArgs m sevenFilled s' := by
  have hm : Mounted sevenArgs sevenFilled.dev := mounted_sevenSt _ _ _ _
  have hag : Agree sevenArgs sevenFilled.dev sevenFilled.fsBitmap := agree_sevenSt (by decide) (by decide)
  have htab : ∀ c : ℤ, 0 ≤ c → c < 7 → tab sevenArgs sevenFilled.dev c = filledTab c.toNat :=
    fun c h0 hc => tab_sevenSt _ _ _ _ h0 hc
  have hfour : AllFree (tab sevenArgs sevenFilled.dev 4) := by
    rw [htab 4 (by decide) (by decide)]
    exact fun _ => rfl
  obtain ⟨m, hop, hl, hclaim⟩ := devFullFreeCluster_sound (hag.bitsOk hm (by simp [cluCnt_sevenArgs]))
    ⟨4, by decide, by rw [cluCnt_sevenArgs]; decide, hfour⟩
  obtain ⟨r, s', hres, honly⟩ := hclaim hm
  refine ⟨m, r, s', hop, ?_, hl, hres, honly⟩
  have hpos := hl.pos
  have hle : m ≤ 4 := not_lt.mp fun hlt => hl.least 4 (by decide) hlt hfour
  have hfree := hl.free
  rw [htab m (by omega) (by omega)] at hfree
  interval_cases m
  · exact absurd (hfree 0) (by decide)
  · exact absurd (hfree 0) (by decide)
  · exact absurd (hfree 0) (by decide)
  · rfl

end Fcfs.Vol
