import Fcfs.Vol.OnFile
import Mathlib.Data.Finset.Prod
import Mathlib.Data.Int.Interval
import Mathlib.Order.Interval.Finset.Nat

/-! # Extending a file

`dev_extd_blk_list` takes the first free blocks of the volume, marks them with the file's identifier
and the next numbers, and notes their clusters. If there are enough of them, and a cluster for the
second-level array where one is needed (`Space`), the list with the new nodes is again the block
list of the file, the old blocks keep their contents and nothing happens to other files
(`devExtdBlkList_eq`, `Grown`). -/

namespace Fcfs.Vol

open Lib.Bytes

/-! ### Marking blocks -/

/-- The nodes with the numbers after `n`. -/
def renum : List BlkInfo → ℤ → List BlkInfo
  | [], _ => []
  | b :: l, n => { b with num := (u32 (n + 1)).toNat } :: renum l (n + 1)

@[simp] theorem length_renum (l : List BlkInfo) (n : ℤ) : (renum l n).length = l.length := by
  induction l generalizing n with
  | nil => rfl
  | cons b l ih => rw [renum, List.length_cons, List.length_cons, ih]

theorem map_blkOf_renum (l : List BlkInfo) (n : ℤ) : (renum l n).map blkOf = l.map blkOf := by
  induction l generalizing n with
  | nil => rfl
  | cons b l ih => rw [renum, List.map_cons, List.map_cons, ih]; rfl

theorem map_cid_renum (l : List BlkInfo) (n : ℤ) :
    (renum l n).map BlkInfo.cid = l.map BlkInfo.cid := by
  induction l generalizing n with
  | nil => rfl
  | cons b l ih => rw [renum, List.map_cons, List.map_cons, ih]

theorem map_num_renum (l : List BlkInfo) {m : ℕ} (h : m + l.length < 2 ^ 32) :
    (renum l ((m : ℤ) - 1)).map BlkInfo.num = (List.range l.length).map fun k => m + k := by
  induction l generalizing m with
  | nil => rfl
  | cons b l ih =>
    rw [List.length_cons] at h
    have hnext : ((m : ℤ) - 1 + 1) = ((m + 1 : ℕ) : ℤ) - 1 := by omega
    rw [renum, List.map_cons, hnext, ih (by omega), List.length_cons, List.range_succ_eq_map,
      List.map_cons, List.map_map]
    refine congrArg₂ List.cons ?_ (List.map_congr_left fun k _ => ?_)
    · show (u32 (((m + 1 : ℕ) : ℤ) - 1)).toNat = _
      rw [toNat_u32_of_lt (by omega) (by omega)]
      omega
    · simp only [Function.comp_apply]
      omega

/-- **What marking the blocks of a list does.** -/
structure Reserved (a : Args) (f : ℤ) (bs : List BlkInfo) (n : ℤ) (s s' : St) : Prop where
  mounted : Mounted a s'.dev
  agree : Agree a s'.dev s'.fsBitmap
  mem : s' = { s with dev := s'.dev, fsBitmap := s'.fsBitmap }
  new : ∀ b ∈ renum bs n, ∀ i : Fin 7, b.bid = i.val + 1 →
    tab a s'.dev b.cid i = ⟨u32 f, UInt32.ofNat b.num⟩
  old : ∀ c (i : Fin 7), (c, i.val + 1) ∉ bs.map blkOf → tab a s'.dev c i = tab a s.dev c i
  blks : data a s'.dev = data a s.dev
  log : ∃ new, devLog s' = new ++ devLog s ∧ ∀ e ∈ new, 1 ≤ e.1 ∧ e.2 = 0

/-- **`dev_file_reserve` marks the blocks.** -/
theorem reserveLoop_eq {a : Args} {f : ℤ} (bs : List BlkInfo) : ∀ {n : ℤ} {s : St},
    Mounted a s.dev → Agree a s.dev s.fsBitmap →
    (∀ b ∈ bs, 1 ≤ b.cid ∧ b.cid < a.cluCnt ∧ 1 ≤ b.bid ∧ b.bid ≤ 7) → (bs.map blkOf).Nodup →
    ∃ s', reserveLoop a f bs bs.length n s = some (renum bs n, s') ∧ Reserved a f bs n s s' := by
  induction bs with
  | nil =>
    intro n s hm hag _ _
    exact ⟨s, rfl, hm, hag, rfl, fun b hb => absurd hb List.not_mem_nil, fun _ _ _ => rfl, rfl, [],
      rfl, fun e he => absurd he List.not_mem_nil⟩
  | cons b bs ih =>
    intro n s hm hag hin hnd
    obtain ⟨h1, hc, hb1, hb7⟩ := hin b List.mem_cons_self
    rw [List.map_cons] at hnd
    obtain ⟨hnot, hnd⟩ := List.nodup_cons.mp hnd
    obtain ⟨d, bm, hop, hm', ht, hd, hlog, hbit⟩ := writeCtable_updBitmap hm
      ((ctable a s.dev b.cid).set b.bid (u32 f) (u32 (n + 1))) (show 0 ≤ b.cid by omega) hc
    have hag' : Agree a d bm := hag.update (by omega) ht hbit
    obtain ⟨u, hrec, hres⟩ := ih (n := n + 1) (s := { s with dev := d, fsBitmap := bm }) hm' hag'
      (fun b' hb' => hin b' (List.mem_cons_of_mem _ hb')) hnd
    obtain ⟨new, hulog, hunew⟩ := hres.log
    have hent : ∀ c (i : Fin 7), tab a d c i = if c = b.cid ∧ i.val + 1 = b.bid
        then ⟨u32 f, u32 (n + 1)⟩ else tab a s.dev c i := by
      intro c i
      rw [ht]
      by_cases hcb : c = b.cid
      · subst hcb
        rw [Function.update_self, BlockList.set_entrs]
        by_cases hi : i.val + 1 = b.bid
        · rw [if_pos hi, if_pos ⟨rfl, hi⟩]
        · rw [if_neg hi, if_neg fun h => hi h.2]
          rfl
      · rw [Function.update_of_ne hcb, if_neg fun h => hcb h.1]
    refine ⟨u, ?_, hres.mounted, hres.agree, ?_, fun b' hb' i hi => ?_, fun c i hci => ?_,
      hres.blks.trans hd, new ++ [(b.cid, 0)], ?_, fun e he => ?_⟩
    · rw [devWriteCtable_putTab hm _ (by omega) hc, Option.bind_eq_bind, Option.bind_some] at hop
      rw [List.length_cons, reserveLoop]
      refine Option.bind_eq_some_iff.mpr ⟨_, hm.devReadCtable_eq (by omega) hc, ?_⟩
      dsimp only
      rw [if_neg (by omega)]
      refine Option.bind_eq_some_iff.mpr ⟨_, devWriteCtable_putTab hm _ (by omega) hc, ?_⟩
      exact Option.bind_eq_some_iff.mpr ⟨_, hop, Option.bind_eq_some_iff.mpr ⟨_, hrec, rfl⟩⟩
    · have hmem := hres.mem
      exact hmem
    · rcases List.mem_cons.mp hb' with rfl | hb'
      · have hi' : b.bid = i.val + 1 := hi
        have hblk : (b.cid, i.val + 1) = blkOf b := by rw [← hi']; rfl
        have hold := hres.old b.cid i (by rw [hblk]; exact hnot)
        show tab a u.dev b.cid i = _
        rw [hold, hent, if_pos ⟨rfl, hi'.symm⟩, UInt32.ofNat_toNat]
      · exact hres.new b' hb' i hi
    · rw [List.map_cons, List.mem_cons, not_or] at hci
      rw [hres.old c i hci.2, hent, if_neg fun h => hci.1 (Prod.ext h.1 h.2)]
    · rw [hulog, List.append_assoc]
      exact congrArg _ hlog
    · rcases List.mem_append.mp he with he | he
      · exact hunew e he
      · rw [List.mem_singleton.mp he]
        exact ⟨h1, rfl⟩

/-! ### How many blocks there are -/

theorem length_le_of_nodup {a : Args} {ps : List (ℤ × ℕ)} (hnd : ps.Nodup)
    (hin : ∀ p ∈ ps, 0 ≤ p.1 ∧ p.1 < a.cluCnt ∧ 1 ≤ p.2 ∧ p.2 ≤ 7) : ps.length ≤ a.cluCnt * 7 := by
  have hsub : ps.toFinset ⊆ (Finset.Ico (0 : ℤ) a.cluCnt) ×ˢ (Finset.Icc 1 7) := by
    intro p hp
    obtain ⟨h0, hc, h1, h7⟩ := hin p (List.mem_toFinset.mp hp)
    exact Finset.mem_product.mpr ⟨Finset.mem_Ico.mpr ⟨h0, hc⟩, Finset.mem_Icc.mpr ⟨h1, h7⟩⟩
  have hcard := Finset.card_le_card hsub
  rw [List.toFinset_card_of_nodup hnd, Finset.card_product, Int.card_Ico, Nat.card_Icc] at hcard
  simpa using hcard

theorem SeqOk.length_le {a : Args} {l : List BlkInfo} (h : SeqOk a l) : l.length ≤ a.cluCnt * 7 := by
  rw [← List.length_map (f := blkOf)]
  refine length_le_of_nodup h.nodup fun p hp => ?_
  obtain ⟨b, hb, rfl⟩ := List.mem_map.mp hp
  exact h.inVol b hb

theorem FileSeq.length_le {a : Args} {T : ℤ → Fin 7 → BlkEnt} {f : ℤ} {l : List BlkInfo}
    (h : FileSeq a T f l) : l.length ≤ a.cluCnt * 7 := h.seqOk.length_le

theorem freeBlk_in {a : Args} {T : ℤ → Fin 7 → BlkEnt} {p : ℤ × ℕ} (hp : p ∈ freeBlks a T) :
    1 ≤ p.1 ∧ p.1 < a.cluCnt ∧ 1 ≤ p.2 ∧ p.2 ≤ 7 ∧
      ∃ i : Fin 7, p.2 = i.val + 1 ∧ (T p.1 i).fid = 0 := by
  obtain ⟨c, b⟩ := p
  obtain ⟨h1, hk, hb⟩ := mem_freeUpTo.mp hp
  obtain ⟨h1', h7'⟩ := bid_of_mem hb
  obtain ⟨i, hi, hfree⟩ := mem_ownBids.mp hb
  exact ⟨h1, by simp only; omega, h1', h7', i, hi, hfree⟩

theorem freeBlks_length_le (a : Args) (T : ℤ → Fin 7 → BlkEnt) :
    (freeBlks a T).length ≤ a.cluCnt * 7 :=
  length_le_of_nodup (nodup_freeUpTo _ _) fun p hp => by
    obtain ⟨h1, hc, hb1, hb7, -⟩ := freeBlk_in hp
    exact ⟨by omega, hc, hb1, hb7⟩

theorem cluCnt_lt {a : Args} {d : Dev} (hm : Mounted a d) : a.cluCnt * 14 + s1Len a < 2 ^ 31 := by
  have hlt : volLen a.fsHead < 2 ^ 31 := hm.geo.exact
  have hL : 1024 ≤ a.fsHead.lblkSz := hm.geo.le_lblkSz
  have htbl : 0 < a.fsHead.tblLen.toNat := by
    by_contra h0
    have htab := hm.geo.table
    rw [show a.fsHead.tblLen.toNat = 0 by omega, sizeofTable] at htab
    omega
  have hdata := hm.geo.data
  have hsum : 2 * a.fsHead.lblkSz + 8 * a.fsHead.cluCnt.toNat * a.fsHead.lblkSz ≤ volLen a.fsHead := by
    rw [← Nat.add_mul]
    exact Nat.mul_le_mul_right _ (by unfold bloksPerCluster; omega)
  have hclu : 8 * a.fsHead.cluCnt.toNat * 1024 ≤ 8 * a.fsHead.cluCnt.toNat * a.fsHead.lblkSz :=
    Nat.mul_le_mul_left _ hL
  unfold s1Len Args.lblkSz Args.cluCnt
  omega

/-! ### Growing -/

/-- The first `count` free blocks, as nodes without numbers. -/
def nextBlks (a : Args) (d : Dev) (count : ℕ) : List BlkInfo :=
  ((freeBlks a (tab a d)).take count).map node0

/-- The clusters of the file after it has got `count` blocks. -/
def grownClrs (a : Args) (d : Dev) (cl : List ℤ) (count : ℕ) : List ℤ :=
  ((nextBlks a d count).map BlkInfo.cid).foldl (noteClr a) cl

/-- **There is space for `count` more blocks**: as many free blocks, and if the list of clusters
outgrows the direct slots, a wholly free cluster that none of these blocks lies in. -/
structure Space (a : Args) (d : Dev) (cl : List ℤ) (count : ℕ) : Prop where
  blks : count ≤ (freeBlks a (tab a d)).length
  addr : cl.length ≤ 13 → 13 < (grownClrs a d cl count).length →
    ∃ c : ℤ, 1 ≤ c ∧ c < a.cluCnt ∧ AllFree (tab a d c) ∧
      ∀ b ∈ nextBlks a d count, b.cid ≠ c

/-- Nothing is claimed but the entries of the address cluster. -/
def ClaimsOnly (a : Args) (f : ℤ) (s s' : St) : Prop :=
  ∀ c (i : Fin 7), (tab a s'.dev c i).fid = u32 (-1) →
    (tab a s.dev c i).fid = u32 (-1) ∨ c = secAddr s'.fsTable f ∧ c ≠ 0

/-- **What growing the list `l` of a file by `new` leaves behind.** -/
structure Grown (a : Args) (f : ℤ) (l new : List BlkInfo) (cl cl' : List ℤ) (s s' : St) : Prop where
  onFile : OnFile a f s s'
  lnk : (s'.fsTable.entrs f).lnkCnt = (s.fsTable.entrs f).lnkCnt
  seq : s'.mapSeq f = some (l ++ new)
  list : FileSeq a (tab a s'.dev) f (l ++ new)
  kept : ∀ b ∈ l, ∀ i : Fin 7, b.bid = i.val + 1 → tab a s'.dev b.cid i = tab a s.dev b.cid i
  nums : ∀ b ∈ new, ∀ i : Fin 7, b.bid = i.val + 1 → (tab a s'.dev b.cid i).num.toNat = b.num
  content : ∀ b ∈ l, data a s'.dev b.cid b.bid = data a s.dev b.cid b.bid
  addr : secAddr s.fsTable f ≠ 0 → secAddr s'.fsTable f = secAddr s.fsTable f
  claims : ClaimsOnly a f s s'
  anchored : Anchored a s'.fsTable f cl'
  noted : cl'.length ≤ 13 + secCap a → ∀ b ∈ new, b.cid ∈ cl'
  loaded : Loaded s'.clrsCache f cl'
  stored : cl'.length ≤ 13 + secCap a → Stored a s'.dev s'.fsTable f cl'
  owned : SecOwned a s f → SecOwned a s' f
  blks : ∀ c b, data a s'.dev c b = data a s.dev c b ∨ c = secAddr s'.fsTable f ∧ c ≠ 0

section Extend
variable {a : Args} {f : ℤ} {s : St} {l : List BlkInfo} {cl : List ℤ}

theorem nextBlks_in {d : Dev} {count : ℕ} {b : BlkInfo} (hb : b ∈ nextBlks a d count) :
    1 ≤ b.cid ∧ b.cid < a.cluCnt ∧ 1 ≤ b.bid ∧ b.bid ≤ 7 ∧
      ∃ i : Fin 7, b.bid = i.val + 1 ∧ (tab a d b.cid i).fid = 0 := by
  obtain ⟨p, hp, rfl⟩ := List.mem_map.mp hb
  exact freeBlk_in (List.mem_of_mem_take hp)

theorem map_blkOf_nextBlks (a : Args) (d : Dev) (count : ℕ) :
    (nextBlks a d count).map blkOf = (freeBlks a (tab a d)).take count := by
  unfold nextBlks
  rw [List.map_map]
  exact List.map_id _

theorem nodup_nextBlks (a : Args) (d : Dev) (count : ℕ) : ((nextBlks a d count).map blkOf).Nodup := by
  rw [map_blkOf_nextBlks]
  exact (nodup_freeUpTo _ _).sublist (List.take_sublist _ _)

theorem Reserved.onFile {bs : List BlkInfo} {n : ℤ} {s' : St} (h : Reserved a f bs n s s')
    (hfree : ∀ b ∈ bs, 1 ≤ b.cid ∧ ∀ i : Fin 7, b.bid = i.val + 1 → (tab a s.dev b.cid i).fid = 0) :
    OnFile a f s s' := by
  have hmem := h.mem
  have htab : s'.fsTable = s.fsTable := by rw [hmem]
  obtain ⟨new, hlog, hnew⟩ := h.log
  refine ⟨h.mounted, h.agree, by rw [hmem], Or.inl (by rw [hmem]), fun g _ => by rw [hmem],
    fun g _ => by rw [htab], Or.inl (by rw [htab]), fun c i => ?_, fun c b => Or.inl (by rw [h.blks]),
    new, hlog, fun e he => Or.inl (hnew e he)⟩
  by_cases hin : (c, i.val + 1) ∈ bs.map blkOf
  · have hin' := hin
    rw [← map_blkOf_renum bs n] at hin'
    obtain ⟨b, hb, hbc⟩ := List.mem_map.mp hin
    obtain ⟨b', hb', hbc'⟩ := List.mem_map.mp hin'
    obtain ⟨rfl, hbid⟩ := Prod.mk.inj hbc
    obtain ⟨hcid', hbid'⟩ := Prod.mk.inj hbc'
    obtain ⟨h1, hf⟩ := hfree b hb
    refine Or.inr ⟨h1, Or.inl (hf i hbid), Or.inl (Or.inr ?_)⟩
    rw [← hcid', h.new b' hb' i hbid']
  · exact Or.inl (h.old c i hin)

/-- Appending to the cluster list leaves the entries of blocks in use. -/
theorem Ext.entry {s' : St} (h : Ext a f s s') {c : ℤ} {i : Fin 7}
    (hne : (tab a s.dev c i).fid ≠ 0) : tab a s'.dev c i = tab a s.dev c i := by
  rcases h.tabs c with heq | ⟨-, -, -, -, hfree, -⟩
  · exact congrFun heq i
  · exact absurd (hfree i) hne

theorem Ext.entry_of {s' : St} (h : Ext a f s s') {c : ℤ} {i : Fin 7} {x : UInt32}
    (hx : x ≠ u32 (-1)) (he : (tab a s'.dev c i).fid = x) : (tab a s.dev c i).fid = x := by
  rcases h.tabs c with heq | ⟨-, -, -, -, -, hcl⟩
  · rw [← heq]
    exact he
  · rw [hcl] at he
    exact absurd he.symm hx

/-- **The new list is the file's.** -/
theorem fileSeq_append {bs : List BlkInfo} {t u : St} (hf : u32 f ≠ 0) (hf' : u32 f ≠ u32 (-1))
    (hl : FileSeq a (tab a s.dev) f l) (hres : Reserved a f bs ((l.length : ℤ) - 1) s t)
    (hext : Ext a f t u) (hin : ∀ b ∈ bs, 1 ≤ b.cid ∧ b.cid < a.cluCnt ∧ 1 ≤ b.bid ∧ b.bid ≤ 7 ∧
      ∀ i : Fin 7, b.bid = i.val + 1 → (tab a s.dev b.cid i).fid = 0)
    (hnd : (bs.map blkOf).Nodup) (hlen : l.length + bs.length < 2 ^ 32) :
    FileSeq a (tab a u.dev) f (l ++ renum bs ((l.length : ℤ) - 1)) := by
  have hmap : (l ++ renum bs ((l.length : ℤ) - 1)).map blkOf = l.map blkOf ++ bs.map blkOf := by
    rw [List.map_append, map_blkOf_renum]
  have hdisj : ∀ p ∈ l.map blkOf, p ∉ bs.map blkOf := by
    intro p hp hp'
    obtain ⟨b, hb, rfl⟩ := List.mem_map.mp hp'
    obtain ⟨-, -, i, hi, hfid⟩ := (hl.mem _).mp hp
    have hfree := (hin b hb).2.2.2.2 i hi
    exact hf (hfid.symm.trans hfree)
  refine ⟨fun p => ?_, fun b hb => ?_, ?_, ?_, ?_⟩
  · rw [hmap, List.mem_append]
    constructor
    · rintro (hp | hp)
      · obtain ⟨h0, hc, i, hi, hfid⟩ := (hl.mem p).mp hp
        have hold : tab a t.dev p.1 i = tab a s.dev p.1 i :=
          hres.old p.1 i (by rw [← hi]; exact hdisj p hp)
        have hent := hext.entry (c := p.1) (i := i) (by rw [hold, hfid]; exact hf)
        exact ⟨h0, hc, i, hi, by rw [hent, hold, hfid]⟩
      · obtain ⟨b, hb, rfl⟩ := List.mem_map.mp hp
        obtain ⟨h1, hc, hb1, hb7, -⟩ := hin b hb
        have hb' : blkOf b ∈ (renum bs ((l.length : ℤ) - 1)).map blkOf := by
          rw [map_blkOf_renum]
          exact hp
        obtain ⟨b', hb', heq⟩ := List.mem_map.mp hb'
        obtain ⟨hcid, hbid⟩ := Prod.mk.inj heq
        refine ⟨by simp only [blkOf]; omega, hc, ⟨b.bid - 1, by omega⟩, by simp only [blkOf]; omega, ?_⟩
        have hnew := hres.new b' hb' ⟨b.bid - 1, by omega⟩ (by simp only; omega)
        rw [hcid] at hnew
        have hent := hext.entry (c := b.cid) (i := ⟨b.bid - 1, by omega⟩) (by rw [hnew]; exact hf)
        show (tab a u.dev b.cid _).fid = _
        rw [hent, hnew]
    · rintro ⟨h0, hc, i, hi, hfid⟩
      have hmid := hext.entry_of hf' hfid
      by_cases hp : p ∈ bs.map blkOf
      · exact Or.inr hp
      · have hold : tab a t.dev p.1 i = tab a s.dev p.1 i :=
          hres.old p.1 i (by rw [← hi]; exact hp)
        rw [hold] at hmid
        exact Or.inl ((hl.mem p).mpr ⟨h0, hc, i, hi, hmid⟩)
  · rcases List.mem_append.mp hb with hb | hb
    · exact hl.pos b hb
    · have hb' : b.cid ∈ (renum bs ((l.length : ℤ) - 1)).map BlkInfo.cid := List.mem_map_of_mem hb
      rw [map_cid_renum] at hb'
      obtain ⟨b', hb', heq⟩ := List.mem_map.mp hb'
      rw [← heq]
      exact (hin b' hb').1
  · rw [hmap]
    exact hl.nodup.append hnd hdisj
  · rw [List.map_append, map_num_renum bs hlen, List.length_append, length_renum, List.range_add]
    exact hl.nums.append_right _
  · exact List.append_ne_nil_of_left_ne_nil hl.ne _

/-- An identifier of the table is neither the mark of a free block nor that of a claimed one. -/
theorem u32_fid (h0 : 0 < f) (hf : f < tableLen) : u32 f ≠ 0 ∧ u32 f ≠ u32 (-1) := by
  obtain ⟨hmine, hclaim⟩ := foreign_of_lt (f := 0) (le_refl 0) (by decide) h0 hf (by omega)
  exact ⟨fun h => hmine (Or.inl h), hclaim⟩

/-- A change of the memory that leaves everything about the other files. -/
theorem OnFile.memory {s' : St} (hm : Mounted a s.dev) (hag : Agree a s.dev s.fsBitmap)
    (hd : s'.dev = s.dev) (hb : s'.fsBitmap = s.fsBitmap) (ht : s'.fsTable = s.fsTable)
    (hi : s'.mapFid = s.mapFid) (hclrs : s'.clrsCache = s.clrsCache ∨ s'.clrsCache.fid = f)
    (hseq : ∀ g, g ≠ f → s'.mapSeq g = s.mapSeq g) : OnFile a f s s' := by
  refine ⟨hd ▸ hm, by rw [hd, hb]; exact hag, hi, hclrs, hseq, fun g _ => by rw [ht], Or.inl (by rw [ht]),
    fun c i => Or.inl (by rw [hd]), fun c b => Or.inl (by rw [hd]), [], ?_, fun e he =>
    absurd he List.not_mem_nil⟩
  unfold devLog
  rw [hd]
  rfl

theorem Ext.writeTable (hm : Mounted a s.dev) (hag : Agree a s.dev s.fsBitmap) (f : ℤ) :
    Ext a f s (devWriteTable a s).2 := by
  rw [devWriteTable_putTable hm]
  obtain ⟨ht, hd⟩ := views_putTable hm s.fsTable
  exact ⟨hm.putTable _, hag.congr ht, rfl, rfl, rfl, fun _ _ => rfl, rfl, fun _ => rfl,
    fun hz hnz => absurd hz hnz, fun c => Or.inl (congrFun ht c),
    fun c b => Or.inl (congrFun (congrFun hd c) b), [], rfl, fun _ he => absurd he List.not_mem_nil⟩

/-- What is stored depends on the six blocks of the address cluster. -/
theorem Stored.congr {d d' : Dev} {t : FcfsTable} (hst : Stored a d t f cl) (hL : 1024 ≤ a.lblkSz)
    (hd : ∀ b, 1 ≤ b → b ≤ 6 → data a d' (secAddr t f) b = data a d (secAddr t f) b) :
    Stored a d' t f cl := by
  have hcap := hst.cap
  have hdrop : (cl.drop 13).length = cl.length - 13 := List.length_drop
  exact ⟨hst.toAnchored, hcap, fun hlong => (hst.words hlong).congr hd hL (by omega)⟩

theorem length_nextBlks {d : Dev} {count : ℕ} (h : count ≤ (freeBlks a (tab a d)).length) :
    (nextBlks a d count).length = count := by
  unfold nextBlks
  rw [List.length_map, List.length_take, Nat.min_eq_left h]

/-- What is known of a file whose list is about to grow. -/
structure Growable (a : Args) (s : St) (f : ℤ) (l : List BlkInfo) (cl : List ℤ) : Prop where
  stored : Stored a s.dev s.fsTable f cl
  ne : cl ≠ []
  cache : CacheOk s.clrsCache f cl
  apart : SecApart a s f
  list : FileSeq a (tab a s.dev) f l

/-! ### Marking blocks and noting their clusters -/

section Marked
variable {bs : List BlkInfo} {n : ℤ} {t u : St} (hres : Reserved a f bs n s t) (hext : Ext a f t u)

/-- The table is the old one when the blocks have been marked. -/
theorem Reserved.secAddr (h : Reserved a f bs n s t) : secAddr t.fsTable f = secAddr s.fsTable f := by
  have hmem := h.mem
  unfold Vol.secAddr
  rw [hmem]

theorem num_lt_of_renum {m : ℕ} (hlen : m + bs.length < 2 ^ 32) {b : BlkInfo}
    (hb : b ∈ renum bs ((m : ℤ) - 1)) : b.num < 2 ^ 32 := by
  have hb' := List.mem_map_of_mem (f := BlkInfo.num) hb
  rw [map_num_renum _ hlen] at hb'
  obtain ⟨k, hk, hkb⟩ := List.mem_map.mp hb'
  rw [List.mem_range] at hk
  omega

include hres hext

theorem marked_entry (hfree : ∀ b ∈ bs, ∀ i : Fin 7, b.bid = i.val + 1 → (tab a s.dev b.cid i).fid = 0)
    {c : ℤ} {i : Fin 7} (hne : (tab a s.dev c i).fid ≠ 0) : tab a u.dev c i = tab a s.dev c i := by
  have hold : tab a t.dev c i = tab a s.dev c i := by
    refine hres.old c i fun hin => ?_
    obtain ⟨b, hb, heq⟩ := List.mem_map.mp hin
    obtain ⟨rfl, hbid⟩ := Prod.mk.inj heq
    exact hne (hfree b hb i hbid)
  rw [hext.entry (by rw [hold]; exact hne), hold]

theorem marked_num (hf : u32 f ≠ 0) {b : BlkInfo} (hb : b ∈ renum bs n) (hnum : b.num < 2 ^ 32) {i : Fin 7}
    (hi : b.bid = i.val + 1) : (tab a u.dev b.cid i).num.toNat = b.num := by
  have hnew := hres.new b hb i hi
  have hent : tab a u.dev b.cid i = tab a t.dev b.cid i := hext.entry (by rw [hnew]; exact hf)
  rw [hent, hnew, UInt32.toNat_ofNat', Nat.mod_eq_of_lt hnum]

theorem marked_blks (c : ℤ) (b : ℕ) :
    data a u.dev c b = data a s.dev c b ∨ c = secAddr u.fsTable f ∧ c ≠ 0 := by
  have hmid : data a t.dev c b = data a s.dev c b := congrFun (congrFun hres.blks c) b
  exact (hext.blks c b).imp (fun heq => heq.trans hmid) fun h => ⟨h.1, h.2.1⟩

theorem marked_data (hfree : ∀ b ∈ bs, ∀ i : Fin 7, b.bid = i.val + 1 → (tab a s.dev b.cid i).fid = 0)
    (hf : u32 f ≠ 0) (hf' : u32 f ≠ u32 (-1)) (hapart : SecApart a s f) {c : ℤ} {i : Fin 7}
    (hfid : (tab a s.dev c i).fid = u32 f) (b : ℕ) : data a u.dev c b = data a s.dev c b := by
  refine (marked_blks hres hext c b).resolve_right ?_
  rintro ⟨hc, h0⟩
  by_cases hs : secAddr t.fsTable f = 0
  · obtain ⟨-, hall, -⟩ := hext.claim hs (hc ▸ h0)
    have hu := marked_entry hres hext hfree (c := c) (i := i) (by rw [hfid]; exact hf)
    have hmid := hext.entry_of hf' ((congrArg BlkEnt.fid hu).trans hfid)
    exact hf (hmid.symm.trans (hc ▸ hall i))
  · have hkeep := hext.keep hs
    rw [hres.secAddr] at hkeep hs
    rcases hapart with hz | hall
    · exact hs hz
    · exact hall i (by rw [← hkeep, ← hc]; exact hfid)

theorem marked_claims (hf : u32 f ≠ u32 (-1)) : ClaimsOnly a f s u := by
  intro c i hcl
  rcases hext.tabs c with heq | ⟨-, hc, h1, -⟩
  · have hclt : (tab a t.dev c i).fid = u32 (-1) := (congrArg BlkEnt.fid (congrFun heq i)).symm.trans hcl
    rw [← hres.old c i fun hin => ?_]
    · exact Or.inl hclt
    · -- a marked entry is the file's
      rw [← map_blkOf_renum _ n] at hin
      obtain ⟨b, hb, heq'⟩ := List.mem_map.mp hin
      obtain ⟨rfl, hbid⟩ := Prod.mk.inj heq'
      rw [hres.new b hb i hbid] at hclt
      exact hf hclt
  · exact Or.inr ⟨hc, by omega⟩

theorem marked_owned (hfree : ∀ b ∈ bs, ∀ i : Fin 7, b.bid = i.val + 1 → (tab a s.dev b.cid i).fid = 0)
    (hown : SecOwned a s f) : SecOwned a u f := by
  by_cases hs : secAddr s.fsTable f = 0
  · by_cases hs' : secAddr u.fsTable f = 0
    · exact Or.inl hs'
    · obtain ⟨-, -, hcl⟩ := hext.claim (by rw [hres.secAddr]; exact hs) hs'
      exact Or.inr fun i => by rw [hcl]; rfl
  · have hkeep := hext.keep (by rw [hres.secAddr]; exact hs)
    rw [hres.secAddr] at hkeep
    have hall := hown.resolve_left hs
    refine Or.inr fun i => ?_
    have hne : (tab a s.dev (secAddr s.fsTable f) i).fid ≠ 0 := by
      rw [hall i]
      decide
    rw [hkeep, marked_entry hres hext hfree hne]
    exact hall i

end Marked

/-- Marking the blocks and noting their clusters: all that growing does, but for the cached list. -/
theorem reserve_grown {t u : St} {c : ClrsCache} {count : ℕ} (hf0 : 0 < f) (hft : f < tableLen)
    (hm : Mounted a s.dev) (hag : Agree a s.dev s.fsBitmap) (hg : Growable a s f l cl) (hfid : c.fid = f)
    (hres : Reserved a f (nextBlks a s.dev count) ((l.length : ℤ) - 1) { s with clrsCache := c } t)
    (hext : Ext a f t u) (han : Anchored a u.fsTable f (grownClrs a s.dev cl count))
    (hl : Loaded u.clrsCache f (grownClrs a s.dev cl count))
    (hst : (grownClrs a s.dev cl count).length ≤ 13 + secCap a →
      Stored a u.dev u.fsTable f (grownClrs a s.dev cl count))
    (hlen : l.length + (nextBlks a s.dev count).length < 2 ^ 32) :
    Grown a f l (renum (nextBlks a s.dev count) ((l.length : ℤ) - 1)) cl (grownClrs a s.dev cl count) s
      (cacheSeqAdd u f (l ++ renum (nextBlks a s.dev count) ((l.length : ℤ) - 1))) := by
  obtain ⟨hne0, hne1⟩ := u32_fid hf0 hft
  have hmem := hres.mem
  have htable : t.fsTable = s.fsTable := by rw [hmem]
  have hin : ∀ b ∈ nextBlks a s.dev count, 1 ≤ b.cid ∧ b.cid < a.cluCnt ∧ 1 ≤ b.bid ∧ b.bid ≤ 7 ∧
      ∀ i : Fin 7, b.bid = i.val + 1 → (tab a s.dev b.cid i).fid = 0 := by
    intro b hb
    obtain ⟨h1, hc, hb1, hb7, i, hi, hfree⟩ := nextBlks_in hb
    refine ⟨h1, hc, hb1, hb7, fun j hj => ?_⟩
    obtain rfl : i = j := Fin.ext (by omega)
    exact hfree
  have hfree : ∀ b ∈ nextBlks a s.dev count, ∀ i : Fin 7, b.bid = i.val + 1 →
      (tab a s.dev b.cid i).fid = 0 := fun b hb => (hin b hb).2.2.2.2
  have hkeep : ∀ b ∈ l, ∃ i : Fin 7, b.bid = i.val + 1 ∧ (tab a s.dev b.cid i).fid = u32 f := by
    intro b hb
    obtain ⟨-, -, i, hi, hfid⟩ := hg.list.owns hb
    exact ⟨i, hi, hfid⟩
  -- the cache is loaded, the blocks are marked, the clusters noted, the list cached
  have hload : OnFile a f s { s with clrsCache := c } :=
    OnFile.memory hm hag rfl rfl rfl rfl (Or.inr hfid) fun _ _ => rfl
  have hmark : OnFile a f { s with clrsCache := c } t :=
    hres.onFile fun b hb => ⟨(hin b hb).1, hfree b hb⟩
  have hseq : OnFile a f u
      (cacheSeqAdd u f (l ++ renum (nextBlks a s.dev count) ((l.length : ℤ) - 1))) :=
    OnFile.memory hext.mounted hext.agree rfl rfl rfl rfl (Or.inl rfl)
      fun g hg => Function.update_of_ne hg _ _
  -- what is read of the tables and blocks afterwards
  have hlist := fileSeq_append (s := { s with clrsCache := c }) hne0 hne1 hg.list hres hext hin
    (nodup_nextBlks _ _ _) hlen
  have hentry : ∀ {c' : ℤ} {i : Fin 7}, (tab a s.dev c' i).fid ≠ 0 → tab a u.dev c' i = tab a s.dev c' i :=
    marked_entry hres hext hfree
  have hnum : ∀ b ∈ renum (nextBlks a s.dev count) ((l.length : ℤ) - 1), ∀ i : Fin 7, b.bid = i.val + 1 →
      (tab a u.dev b.cid i).num.toNat = b.num := fun b hb i hi =>
    marked_num hres hext hne0 hb (num_lt_of_renum hlen hb) hi
  have hdata : ∀ {c' : ℤ} {i : Fin 7}, (tab a s.dev c' i).fid = u32 f →
      ∀ b, data a u.dev c' b = data a s.dev c' b := marked_data hres hext hfree hne0 hne1 hg.apart
  have hclaims : ClaimsOnly a f s u := marked_claims (s := { s with clrsCache := c }) hres hext hne1
  have howned : SecOwned a s f → SecOwned a u f := fun hown =>
    marked_owned (s := { s with clrsCache := c }) hres hext hfree hown
  have hblks := marked_blks hres hext
  refine ⟨hload.trans (hmark.trans ((hext.onFile (Or.inr hl.fid)).trans hseq)), ?_,
    Function.update_self _ _ _, hlist, fun b hb i hi => ?_, hnum, fun b hb => ?_, fun hs => ?_, hclaims, han,
    fun hcap b hb => ?_, hl, hst, howned, hblks⟩
  · show (u.fsTable.entrs f).lnkCnt = _
    rw [hext.lnk, htable]
  · obtain ⟨j, hj, hfid⟩ := hkeep b hb
    obtain rfl : j = i := Fin.ext (by omega)
    exact hentry (by rw [hfid]; exact hne0)
  · obtain ⟨i, hi, hfid⟩ := hkeep b hb
    exact hdata hfid b.bid
  · have hkeep' := hext.keep (by rw [htable]; exact hs)
    rw [htable] at hkeep'
    exact hkeep'
  · have hb' := List.mem_map_of_mem (f := BlkInfo.cid) hb
    rw [map_cid_renum] at hb'
    exact mem_foldl_noteClr (lt_of_le_of_lt hcap (secCap_lt hm.geo.le_lblkSz)) _ hb'

/-- The steps of `dev_extd_blk_list`: the cluster list is loaded, the next free blocks are marked,
and their clusters are noted. -/
structure Extended (a : Args) (f : ℤ) (l : List BlkInfo) (cl : List ℤ) (count : ℕ) (s : St)
    (c : ClrsCache) (t u : St) : Prop where
  fid : c.fid = f
  mark : Reserved a f (nextBlks a s.dev count) ((l.length : ℤ) - 1) { s with clrsCache := c } t
  note : Ext a f t u
  anchored : Anchored a u.fsTable f (grownClrs a s.dev cl count)
  loaded : Loaded u.clrsCache f (grownClrs a s.dev cl count)
  stored : (grownClrs a s.dev cl count).length ≤ 13 + secCap a →
    Stored a u.dev u.fsTable f (grownClrs a s.dev cl count)
  result : devExtdBlkList a s l l.length count f =
    some (((l ++ renum (nextBlks a s.dev count) ((l.length : ℤ) - 1)).length : ℤ),
      l ++ renum (nextBlks a s.dev count) ((l.length : ℤ) - 1),
      cacheSeqAdd u f (l ++ renum (nextBlks a s.dev count) ((l.length : ℤ) - 1)))

theorem devExtdBlkList_steps {count : ℕ} (hsm : a.cluCnt ≤ 65535) (hf0 : 0 < f)
    (hm : Mounted a s.dev) (hag : Agree a s.dev s.fsBitmap) (hg : Growable a s f l cl)
    (hcount : 1 ≤ count) (hspace : Space a s.dev cl count) :
    ∃ c t u, Extended a f l cl count s c t u := by
  have hlen := length_nextBlks hspace.blks
  have hll := hg.list.length_le
  have hfl := freeBlks_length_le a (tab a s.dev)
  have hbound := hg.stored.bound
  have hclu := cluCnt_lt hm
  have hblks := hspace.blks
  have hfree := devFreeBlocks_eq hm hag hcount hspace.blks
  obtain ⟨c, hcnt, hld⟩ := devTblClrsCnt_eq hm (by omega) hg.stored hg.cache
  obtain ⟨t, hloop, hres⟩ := reserveLoop_eq (f := f) (nextBlks a s.dev count)
    (n := (l.length : ℤ) - 1) (s := { s with clrsCache := c }) hm hag (fun b hb => by
      obtain ⟨h1, hc, hb1, hb7, -⟩ := nextBlks_in hb
      exact ⟨h1, hc, hb1, hb7⟩) (nodup_nextBlks _ _ _)
  have hmem := hres.mem
  have htable : t.fsTable = s.fsTable := by rw [hmem]
  have hcache : t.clrsCache = c := by rw [hmem]
  have hcids : ∀ b ∈ renum (nextBlks a s.dev count) ((l.length : ℤ) - 1), 1 ≤ b.cid ∧
      b.cid < a.cluCnt := by
    intro b hb
    have hb' := List.mem_map_of_mem (f := BlkInfo.cid) hb
    rw [map_cid_renum] at hb'
    obtain ⟨b', hb', heq⟩ := List.mem_map.mp hb'
    obtain ⟨h1, hc, -⟩ := nextBlks_in hb'
    rw [← heq]
    exact ⟨h1, hc⟩
  obtain ⟨u, hmemc, hext, han, hl', hst⟩ := devFileMemClrs_eq hsm
    (renum (nextBlks a s.dev count) ((l.length : ℤ) - 1)) hcids (n := (cl.length : ℤ)) (f := f)
    hres.mounted hres.agree (by rw [htable]; exact hg.stored.toAnchored) (by rw [hcache]; exact hld)
    hg.ne (Or.inl rfl) (by rw [length_renum, hlen]; omega) (by
      intro hle hgt
      rw [map_cid_renum] at hgt
      obtain ⟨c', h1, hc', hfr, hnot⟩ := hspace.addr hle hgt
      refine ⟨c', h1, hc', fun i => ?_⟩
      rw [hres.old c' i fun hin => ?_]
      · exact hfr i
      · obtain ⟨b, hb, heq⟩ := List.mem_map.mp hin
        exact hnot b hb (Prod.mk.inj heq).1)
  rw [map_cid_renum] at han hl' hst
  have hwt := Ext.writeTable hext.mounted hext.agree f
  have hlast : (devWriteTable a u).2.fsTable = u.fsTable ∧
      (devWriteTable a u).2.clrsCache = u.clrsCache ∧
      data a (devWriteTable a u).2.dev = data a u.dev := by
    rw [devWriteTable_putTable hext.mounted]
    exact ⟨rfl, rfl, (views_putTable hext.mounted _).2⟩
  have hst0 : Stored a t.dev t.fsTable f cl := by
    rw [htable]
    exact hg.stored.congr hm.geo.le_lblkSz fun b _ _ => by rw [hres.blks]
  have hst' : (grownClrs a s.dev cl count).length ≤ 13 + secCap a →
      Stored a (devWriteTable a u).2.dev (devWriteTable a u).2.fsTable f
        (grownClrs a s.dev cl count) := by
    intro hcap
    rw [hlast.1]
    exact (hst hst0 hcap).congr hm.geo.le_lblkSz fun b _ _ => by rw [hlast.2.2]
  refine ⟨c, t, (devWriteTable a u).2, hld.fid, hres, hext.trans hwt, by rw [hlast.1]; exact han,
    by rw [hlast.2.1]; exact hl', hst', ?_⟩
  rw [hlen] at hloop
  rw [length_renum, hlen] at hmemc
  unfold devExtdBlkList
  refine Option.bind_eq_some_iff.mpr ⟨_, hfree, ?_⟩
  have hresv : devFileReserve a s f (nextBlks a s.dev count) count ((l.length : ℤ) - 1) =
      some (0, renum (nextBlks a s.dev count) ((l.length : ℤ) - 1), (devWriteTable a u).2) := by
    unfold devFileReserve
    rw [if_neg (by omega)]
    refine Option.bind_eq_some_iff.mpr ⟨_, hcnt, ?_⟩
    dsimp only
    rw [if_neg (by omega)]
    exact Option.bind_eq_some_iff.mpr ⟨_, hloop, Option.bind_eq_some_iff.mpr ⟨_, hmemc, rfl⟩⟩
  refine Option.bind_eq_some_iff.mpr ⟨_, hresv, ?_⟩
  dsimp only
  rw [if_neg (by omega), List.length_append, length_renum, hlen]
  rfl

/-- **`dev_extd_blk_list` grows a file**, if there is space. -/
theorem devExtdBlkList_eq {count : ℕ} (hsm : a.cluCnt ≤ 65535) (hf0 : 0 < f) (hft : f < tableLen)
    (hm : Mounted a s.dev) (hag : Agree a s.dev s.fsBitmap) (hg : Growable a s f l cl)
    (hcount : 1 ≤ count) (hspace : Space a s.dev cl count) :
    ∃ new s', devExtdBlkList a s l l.length count f = some (((l ++ new).length : ℤ), l ++ new, s') ∧
      new.length = count ∧ Grown a f l new cl (grownClrs a s.dev cl count) s s' := by
  have hlen := length_nextBlks hspace.blks
  have hll := hg.list.length_le
  have hfl := freeBlks_length_le a (tab a s.dev)
  have hclu := cluCnt_lt hm
  have hblks := hspace.blks
  obtain ⟨c, t, u, h⟩ := devExtdBlkList_steps hsm hf0 hm hag hg hcount hspace
  exact ⟨_, _, h.result, (length_renum _ _).trans hlen, reserve_grown hf0 hft hm hag hg h.fid h.mark
    h.note h.anchored h.loaded h.stored (by rw [hlen]; omega)⟩

/-- **What bringing the list of a file to a size leaves behind.** -/
structure GrewTo (a : Args) (f : ℤ) (l l' : List BlkInfo) (cl' : List ℤ) (s s' : St) : Prop where
  onFile : OnFile a f s s'
  lnk : (s'.fsTable.entrs f).lnkCnt = (s.fsTable.entrs f).lnkCnt
  seq : s'.mapSeq f = some l'
  list : FileSeq a (tab a s'.dev) f l'
  pre : l <+: l'
  kept : ∀ b ∈ l, ∀ i : Fin 7, b.bid = i.val + 1 → tab a s'.dev b.cid i = tab a s.dev b.cid i
  nums : ∀ b ∈ l', b ∉ l → ∀ i : Fin 7, b.bid = i.val + 1 → (tab a s'.dev b.cid i).num.toNat = b.num
  content : ∀ b ∈ l, data a s'.dev b.cid b.bid = data a s.dev b.cid b.bid
  addr : secAddr s.fsTable f ≠ 0 → secAddr s'.fsTable f = secAddr s.fsTable f
  claims : ClaimsOnly a f s s'
  anchored : Anchored a s'.fsTable f cl'
  noted : cl'.length ≤ 13 + secCap a → ∀ b ∈ l', b ∉ l → b.cid ∈ cl'
  cache : CacheOk s'.clrsCache f cl'
  stored : cl'.length ≤ 13 + secCap a → Stored a s'.dev s'.fsTable f cl'
  owned : SecOwned a s f → SecOwned a s' f
  blks : ∀ c b, data a s'.dev c b = data a s.dev c b ∨ c = secAddr s'.fsTable f ∧ c ≠ 0

/-- **`dev_write_dir` and `ops_write` bring the list to the size they need**, if there is space. -/
theorem growTo_eq {need : ℤ} (hsm : a.cluCnt ≤ 65535) (hf0 : 0 < f) (hft : f < tableLen)
    (hm : Mounted a s.dev) (hag : Agree a s.dev s.fsBitmap) (hg : Growable a s f l cl)
    (hseq : s.mapSeq f = some l)
    (hspace : (l.length : ℤ) < need → Space a s.dev cl (need - l.length).toNat) :
    ∃ l' s', growTo a s l need f = some ((l'.length : ℤ), l', s') ∧ need ≤ l'.length ∧
      GrewTo a f l l' (grownClrs a s.dev cl (need - l.length).toNat) s s' ∧
      (need ≤ l.length → s' = s) := by
  unfold growTo
  by_cases hlt : (l.length : ℤ) < need
  · obtain ⟨new, s', hop, hnew, hgr⟩ := devExtdBlkList_eq hsm hf0 hft hm hag hg (by omega) (hspace hlt)
    rw [if_pos hlt]
    refine ⟨l ++ new, s', hop, by rw [List.length_append]; omega, ⟨hgr.onFile, hgr.lnk, hgr.seq,
      hgr.list, List.prefix_append _ _, hgr.kept, fun b hb hbl => ?_, hgr.content, hgr.addr, hgr.claims, hgr.anchored,
      fun hcap b hb hbl => ?_, hgr.loaded.cacheOk, hgr.stored, hgr.owned, hgr.blks⟩, fun hle => by omega⟩
    · exact hgr.nums b ((List.mem_append.mp hb).resolve_left hbl)
    · exact hgr.noted hcap b ((List.mem_append.mp hb).resolve_left hbl)
  · have hz : (need - l.length).toNat = 0 := by omega
    rw [if_neg hlt, hz]
    exact ⟨l, s, rfl, by omega, ⟨OnFile.refl hm hag, rfl, hseq, hg.list, List.prefix_rfl,
      fun _ _ _ _ => rfl, fun b hb hbl => absurd hb hbl, fun _ _ => rfl, fun _ => rfl, fun _ _ => Or.inl,
      hg.stored.toAnchored, fun _ b hb hbl => absurd hb hbl, hg.cache, fun _ => hg.stored, id,
      fun _ _ => Or.inl rfl⟩, fun _ => rfl⟩

end Extend

end Fcfs.Vol
