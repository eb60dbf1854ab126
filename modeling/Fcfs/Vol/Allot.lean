import Fcfs.Vol.Tight
import Mathlib.Algebra.Order.BigOperators.Group.Finset

/-! # What the files are allotted

How many blocks a file may have is laid down for all of them (`b`), so that the volume can afford it
(`Affords`). As long as the files keep to that (`KeepsTo`), none of them runs out of space on the way to its
allotment (`fits_of_affords`): the free blocks are counted (`Accounted`), and if a file is to have more
blocks than there are direct slots, there is a cluster for every block that is allotted, so one of them is
left for the second-level list. -/

namespace Fcfs.Vol

open Lib.Bytes

/-- The files that may need a second-level list. -/
def longOnes (b : ℤ → ℕ) : Finset ℤ := (fromOne tableLen).filter fun f => 13 < b f

/-- **The volume can afford the blocks**: there are as many, and if a file may need a second-level list, there
is a cluster for each block and each list. -/
def Affords (a : Args) (b : ℤ → ℕ) : Prop :=
  longOnes b = ∅ ∧ ∑ f ∈ fromOne tableLen, b f ≤ 7 * (a.cluCnt - 1) ∨
    ∑ f ∈ fromOne tableLen, b f + (longOnes b).card ≤ a.cluCnt - 1

/-- **The files keep to their allotments**, and no cluster has been lost. -/
structure KeepsTo (a : Args) (b : ℤ → ℕ) (s : St) : Prop where
  acc : Accounted a s 0
  tight : ∀ f, Live s.fsTable f → f ≠ 0 → Tight a s f
  blks : ∀ f : ℤ, 1 ≤ f → f < tableLen → (nodesAt a (tab a s.dev) f).length ≤ b f

section Space
variable {a : Args} {s t : St} {f p need : ℤ} {b b' : ℤ → ℕ} {cl : List ℤ}

theorem mem_longOnes {f : ℤ} : f ∈ longOnes b ↔ (1 ≤ f ∧ f < tableLen) ∧ 13 < b f := by
  unfold longOnes
  rw [Finset.mem_filter, mem_fromOne]

/-- **A file with a second-level list has more than 13 blocks.** -/
theorem FileOk.long_blks (hok : FileOk a s f cl) (hf : f ≠ 0) (htight : Tight a s f)
    (hsec : secAddr s.fsTable f ≠ 0) : 13 < (nodesAt a (tab a s.dev) f).length := by
  have hst := hok.stored hf
  have hlen := htight cl hst
  by_contra hle
  exact hsec (hst.short (by omega))

theorem KeepsTo.long (h : KeepsTo a b s) (hv : VolOk a s) (hf : f ∈ longFiles s.fsTable) : 13 < b f := by
  obtain ⟨⟨h1, hlt⟩, hlnk, hsec⟩ := mem_longFiles.mp hf
  have hlive : Live s.fsTable f := ⟨by omega, hlt, hlnk⟩
  obtain ⟨cl, -, hok⟩ := hv.files f (Or.inr hlive)
  have hlong := hok.long_blks (by omega) (h.tight f hlive (by omega)) hsec
  exact hlong.trans_le (h.blks f h1 hlt)

/-- The clusters with a block of a file. -/
@[irreducible]
def usedClrs (a : Args) (T : ℤ → Fin 7 → BlkEnt) : Finset ℤ :=
  ((fromOne tableLen).biUnion fun f => carrying a T (u32 f)).image Prod.fst

theorem mem_usedClrs {T : ℤ → Fin 7 → BlkEnt} {c : ℤ} (hf : f ∈ fromOne tableLen) (hc : 1 ≤ c ∧ c < a.cluCnt)
    {i : Fin 7} (hfid : (T c i).fid = u32 f) : c ∈ usedClrs a T := by
  have hin : (c, i) ∈ carrying a T (u32 f) := Finset.mem_filter.mpr ⟨mem_places.mpr hc, hfid⟩
  unfold usedClrs
  rw [Finset.mem_image]
  refine ⟨(c, i), ?_, rfl⟩
  rw [Finset.mem_biUnion]
  exact ⟨f, hf, hin⟩

theorem card_usedClrs_le (a : Args) (T : ℤ → Fin 7 → BlkEnt) :
    (usedClrs a T).card ≤ ∑ f ∈ fromOne tableLen, (nodesAt a T f).length := by
  unfold usedClrs
  refine Finset.card_image_le.trans (Finset.card_biUnion_le.trans (Finset.sum_le_sum fun f hf => ?_))
  have h1 := (mem_fromOne.mp hf).1
  exact (card_file (by omega)).le

/-- **A wholly free cluster is left**, in which none of the blocks lies, if there is one for each block of the
files, each second-level list and each of these blocks. -/
theorem Accounted.exists_free (h : Accounted a s 0) (l : List BlkInfo)
    (hlt : (longFiles s.fsTable).card + ∑ f ∈ fromOne tableLen, (nodesAt a (tab a s.dev) f).length + l.length <
      a.cluCnt - 1) : ∃ c : ℤ, 1 ≤ c ∧ c < a.cluCnt ∧ AllFree (tab a s.dev c) ∧ ∀ b ∈ l, b.cid ≠ c := by
  have hmap := (l.map BlkInfo.cid).toFinset_card_le
  rw [List.length_map] at hmap
  have hused := card_usedClrs_le a (tab a s.dev)
  have hclaims := h.claims
  have hone := Finset.card_union_le (claimedClrs a (tab a s.dev)) (usedClrs a (tab a s.dev))
  have htwo := Finset.card_union_le (claimedClrs a (tab a s.dev) ∪ usedClrs a (tab a s.dev))
    (l.map BlkInfo.cid).toFinset
  have hbusy : (claimedClrs a (tab a s.dev) ∪ usedClrs a (tab a s.dev) ∪
      (l.map BlkInfo.cid).toFinset).card < (fromOne a.cluCnt).card := by
    rw [card_fromOne]
    omega
  obtain ⟨c, hc, hfree⟩ := Finset.exists_mem_notMem_of_card_lt_card hbusy
  rw [Finset.mem_union, Finset.mem_union, not_or, not_or, List.mem_toFinset] at hfree
  obtain ⟨⟨hclaim, hblk⟩, hnew⟩ := hfree
  have hrange := mem_fromOne.mp hc
  refine ⟨c, hrange.1, hrange.2, fun i => ?_, fun b hb heq => hnew (heq ▸ List.mem_map_of_mem hb)⟩
  rcases h.known c hrange.1 hrange.2 i with hz | ⟨f, hf0, hft, hfid⟩ | hfid
  · exact hz
  · have hf : f ∈ fromOne tableLen := mem_fromOne.mpr ⟨hf0, hft⟩
    exact absurd (mem_usedClrs hf hrange hfid) hblk
  · exact absurd (mem_claimedClrs.mpr ⟨hrange, h.whole c i hfid⟩) hclaim

/-- The blocks of the files, and some more of one of them, are no more than what is allotted. -/
theorem sum_blks_le {T : ℤ → Fin 7 → BlkEnt} {k : ℕ} (hp1 : 1 ≤ p) (hpt : p < tableLen)
    (hself : (nodesAt a T p).length + k ≤ b p)
    (hblks : ∀ g : ℤ, 1 ≤ g → g < tableLen → g ≠ p → (nodesAt a T g).length ≤ b g) :
    ∑ g ∈ fromOne tableLen, (nodesAt a T g).length + k ≤ ∑ g ∈ fromOne tableLen, b g := by
  have hp : p ∈ fromOne tableLen := mem_fromOne.mpr ⟨hp1, hpt⟩
  have hrest : ∑ g ∈ (fromOne tableLen).erase p, (nodesAt a T g).length ≤
      ∑ g ∈ (fromOne tableLen).erase p, b g := Finset.sum_le_sum fun g hg => by
    obtain ⟨hgp, hg⟩ := Finset.mem_erase.mp hg
    obtain ⟨h1, hgt⟩ := mem_fromOne.mp hg
    exact hblks g h1 hgt hgp
  rw [← Finset.add_sum_erase _ _ hp, ← Finset.add_sum_erase _ b hp]
  omega

/-- **A file gets what it is allotted**, if the others keep to their allotments and the volume can afford
them. -/
theorem fits_of_affords (hacc : Accounted a s 0) (hp1 : 1 ≤ p) (hpt : p < tableLen) (htight : Tight a s p)
    (hlong : ∀ g ∈ longFiles s.fsTable, g ≠ p → 13 < b g)
    (hblks : ∀ g : ℤ, 1 ≤ g → g < tableLen → g ≠ p → (nodesAt a (tab a s.dev) g).length ≤ b g)
    (hneed : need ≤ b p) (hcap : b p ≤ 13 + secCap a) (hroom : Affords a b) : Fits a s p need := by
  intro cl hok hlt
  obtain ⟨k, hk⟩ : ∃ k : ℕ, (k : ℤ) = need - (nodesAt a (tab a s.dev) p).length :=
    ⟨(need - (nodesAt a (tab a s.dev) p).length).toNat, by omega⟩
  rw [← hk, Int.toNat_natCast]
  have hst := hok.stored (by omega)
  have hlist := htight cl hst
  have hsum := sum_blks_le (k := k) hp1 hpt (by omega) hblks
  have hgrown := length_foldl_noteClr_le a ((nextBlks a s.dev k).map BlkInfo.cid) cl
  have hnext : (nextBlks a s.dev k).length ≤ k := by
    unfold nextBlks
    rw [List.length_map]
    exact List.length_take_le _ _
  rw [List.length_map] at hgrown
  have hsub : ∀ g ∈ longFiles s.fsTable, g ≠ p → g ∈ longOnes b := fun g hg hgp =>
    mem_longOnes.mpr ⟨(mem_longFiles.mp hg).1, hlong g hg hgp⟩
  have hself : p ∈ longFiles s.fsTable → p ∈ longOnes b := fun hin => by
    have := hok.long_blks (by omega) htight (mem_longFiles.mp hin).2.2
    exact mem_longOnes.mpr ⟨⟨hp1, hpt⟩, by omega⟩
  have hcard : (longFiles s.fsTable).card ≤ (longOnes b).card := Finset.card_le_card fun g hg => by
    by_cases hgp : g = p
    · exact hgp ▸ hself (hgp ▸ hg)
    · exact hsub g hg hgp
  refine ⟨by omega, ⟨?_, fun hle h13 => ?_⟩, ?_⟩
  · have htotal := hacc.total
    rcases hroom with ⟨hnone, hle⟩ | hle
    · rw [hnone, Finset.card_empty] at hcard
      omega
    · omega
  · -- the file comes to need a second-level list
    unfold grownClrs at h13
    have hpin : p ∈ longOnes b := mem_longOnes.mpr ⟨⟨hp1, hpt⟩, by omega⟩
    have hshort : p ∉ longFiles s.fsTable := fun hin => (mem_longFiles.mp hin).2.2 (hst.short hle)
    have hless : (longFiles s.fsTable).card ≤ ((longOnes b).erase p).card := Finset.card_le_card fun g hg => by
      have hgp : g ≠ p := fun heq => hshort (heq ▸ hg)
      exact Finset.mem_erase.mpr ⟨hgp, hsub g hg hgp⟩
    have hpos := Finset.card_erase_add_one hpin
    refine hacc.exists_free _ ?_
    rcases hroom with ⟨hnone, -⟩ | hle
    · rw [hnone] at hpin
      exact absurd hpin (Finset.notMem_empty p)
    · omega
  · unfold grownClrs
    omega

end Space

/-! ### Working on the files -/

section Steps
variable {a : Args} {s t u : St} {f p need : ℤ} {b b' : ℤ → ℕ} {cl : List ℤ}

theorem KeepsTo.congr (h : KeepsTo a b s) (hdev : t.dev = s.dev) (htbl : t.fsTable = s.fsTable) :
    KeepsTo a b t := by
  refine ⟨h.acc.congr (by rw [hdev]) (by rw [htbl]), fun f hf hf0 => ?_, fun f h1 hft => ?_⟩
  · rw [htbl] at hf
    exact (h.tight f hf hf0).congr (by rw [hdev]) (by rw [hdev]) htbl
  · rw [hdev]
    exact h.blks f h1 hft

theorem KeepsTo.of_looked (h : KeepsTo a b s) (hlook : Looked a s t) : KeepsTo a b t :=
  h.congr hlook.dev hlook.table

theorem KeepsTo.fits (h : KeepsTo a b s) (hv : VolOk a s) (hf : Live s.fsTable f) (hf0 : f ≠ 0)
    (hle : ∀ g : ℤ, 1 ≤ g → g < tableLen → b g ≤ b' g) (hneed : need ≤ b' f) (hcap : b' f ≤ 13 + secCap a)
    (hroom : Affords a b') : Fits a s f need := by
  have h0 := hf.nonneg
  refine fits_of_affords h.acc (by omega) hf.lt (h.tight f hf hf0) (fun g hg _ => ?_) (fun g h1 hgt _ => ?_)
    hneed hcap hroom
  · obtain ⟨⟨h1, hgt⟩, -⟩ := mem_longFiles.mp hg
    exact (h.long hv hg).trans_le (hle g h1 hgt)
  · exact (h.blks g h1 hgt).trans (hle g h1 hgt)

/-- **Writing to a file** within its allotment. -/
theorem KeepsTo.written (h : KeepsTo a b s) (hv : VolOk a s) (hf : Live s.fsTable f) (hf0 : f ≠ 0)
    (hok : FileOk a s f cl) (hw : Written a f need s t) (hb : BroughtTo a f need s t)
    (hle : ∀ g : ℤ, 1 ≤ g → g < tableLen → b g ≤ b' g) (hneed : need ≤ b' f) : KeepsTo a b' t := by
  have h0 := hf.nonneg
  have hft := hf.lt
  have hon := hw.onFile
  refine ⟨hw.accounted hok (Or.inr hf) h.acc, fun g hg hg0 => ?_, fun g h1 hgt => ?_⟩
  · by_cases hgf : g = f
    · subst hgf
      exact hb.tight hg0 (h.tight g hf hg0)
    · rw [live_congr (hon.others g hgf)] at hg
      exact (hv.but ∅).tight hon h0 hft (Set.notMem_empty g) hg hg0 hgf (h.tight g hg hg0)
  · have hold := (h.blks g h1 hgt).trans (hle g h1 hgt)
    by_cases hgf : g = f
    · subst hgf
      have hsize := hb.size
      have hmax : max ((nodesAt a (tab a s.dev) g).length : ℤ) need ≤ b' g := max_le (by omega) hneed
      omega
    · rw [nodesAt_other hon h0 hft hgf (by omega) hgt]
      exact hold

/-- **Removing a file** that has no second-level list. -/
theorem KeepsTo.removed (h : KeepsTo a b s) (hv : VolOk a s) (hn : Numbered a) (hf : Live s.fsTable f)
    (hf0 : f ≠ 0) (hp : p = 0 ∨ Live s.fsTable p) (hne : p ≠ f) (hshort : b f ≤ 13) {r : ℤ}
    (hop : devRmFile a s f p = some (r, t)) (hle : ∀ g : ℤ, 1 ≤ g → g < tableLen → g ≠ f → b g ≤ b' g) :
    KeepsTo a b' t := by
  have h0 := hf.nonneg
  obtain ⟨t', hop', hvt, hrm⟩ := hv.rmFile hn.clus hf hf0 hp hne
  obtain ⟨-, rfl⟩ := Prod.mk.inj (Option.some.inj (hop.symm.trans hop'))
  obtain ⟨cl, -, hok⟩ := hv.files f (Or.inr hf)
  have hsec : secAddr s.fsTable f = 0 := by
    by_contra hsec
    have hlong := hok.long_blks hf0 (h.tight f hf hf0) hsec
    have := h.blks f (by omega) hf.lt
    omega
  have hdead : ¬ Live t.fsTable f := fun hlive => hlive.lnk (by
    rw [hrm.entry]
    unfold unlinked
    rw [hv.lnk f hf hf0]
    rfl)
  have hgone : ∀ {c : ℤ} {i : Fin 7} {g : ℤ}, 1 ≤ g → g < tableLen → (tab a t.dev c i).fid = u32 g →
      (tab a s.dev c i).fid = u32 g ∧ g ≠ f := by
    intro c i g h1 hgt hfid
    rw [hrm.tabs] at hfid
    unfold cleared at hfid
    split_ifs at hfid with heq
    · exact absurd hfid.symm (u32_fid h1 hgt).1
    · exact ⟨hfid, fun hgf => heq (hgf ▸ hfid)⟩
  refine ⟨?_, fun g hg hg0 => ?_, fun g h1 hgt => ?_⟩
  · have hacc := hrm.accounted hv hvt hf hf0 h.acc
    unfold lostWith at hacc
    rwa [if_pos (Or.inr hsec)] at hacc
  · have hgf : g ≠ f := fun heq => hdead (heq ▸ hg)
    rw [live_congr (hrm.others g hgf)] at hg
    exact hv.tight_rmFile hn.clus hf hf0 hp hne hg hg0 hgf hop (h.tight g hg hg0)
  · rw [← card_file (by omega)]
    by_cases hgf : g = f
    · have hnone : carrying a (tab a t.dev) (u32 g) = ∅ := Finset.eq_empty_of_forall_notMem fun q hq =>
        (hgone h1 hgt (Finset.mem_filter.mp hq).2).2 hgf
      rw [hnone, Finset.card_empty]
      exact Nat.zero_le _
    · have hsub : carrying a (tab a t.dev) (u32 g) ⊆ carrying a (tab a s.dev) (u32 g) := fun q hq => by
        obtain ⟨hplace, hfid⟩ := Finset.mem_filter.mp hq
        exact Finset.mem_filter.mpr ⟨hplace, (hgone h1 hgt hfid).1⟩
      refine (Finset.card_le_card hsub).trans ?_
      rw [card_file (by omega)]
      exact (h.blks g h1 hgt).trans (hle g h1 hgt hgf)

end Steps

/-! ### Making a file -/

section Make
variable {a : Args} {s t u v : St} {f p need : ℤ} {q : ℤ × ℕ} {b b' : ℤ → ℕ} {path : Path}

/-- **There is a free block** for a file that is allotted one and has none. -/
theorem KeepsTo.free_ne (h : KeepsTo a b s) (hv : VolOk a s) (hf1 : 1 ≤ f) (hft : f < tableLen)
    (hdead : ¬ Live s.fsTable f) (hle : ∀ g : ℤ, 1 ≤ g → g < tableLen → g ≠ f → b g ≤ b' g) (hself : 1 ≤ b' f)
    (hroom : Affords a b') : freeBlks a (tab a s.dev) ≠ [] := by
  intro hnil
  obtain ⟨cl, hok⟩ := hv.free f (by omega) hft hdead
  have hnone : (nodesAt a (tab a s.dev) f).length = 0 := by
    rw [← card_file (by omega), Finset.card_eq_zero]
    refine Finset.eq_empty_of_forall_notMem fun q hq => ?_
    obtain ⟨hplace, hfid⟩ := Finset.mem_filter.mp hq
    obtain ⟨h1, hc⟩ := mem_places.mp hplace
    exact hok.none q.1 (by omega) hc q.2 hfid
  have hsum := sum_blks_le (k := 1) hf1 hft (by omega) fun g h1 hgt hgf =>
    (h.blks g h1 hgt).trans (hle g h1 hgt hgf)
  have hlong : (longFiles s.fsTable).card ≤ (longOnes b').card := Finset.card_le_card fun g hg => by
    obtain ⟨⟨h1, hgt⟩, hlnk, -⟩ := mem_longFiles.mp hg
    have hgf : g ≠ f := by
      rintro rfl
      exact hdead ⟨by omega, hgt, hlnk⟩
    exact mem_longOnes.mpr ⟨⟨h1, hgt⟩, (h.long hv hg).trans_le (hle g h1 hgt hgf)⟩
  have htotal := h.acc.total
  rw [hnil, List.length_nil] at htotal
  rcases hroom with ⟨hempty, hsize⟩ | hsize
  · rw [hempty, Finset.card_empty] at hlong
    omega
  · omega

/-- **There is room in the directory** for the entry of the file. -/
theorem KeepsTo.roomIn (h : KeepsTo a b s) (hv : VolOk a s) (hf1 : 1 ≤ f) (hft : f < tableLen)
    (hdead : ¬ Live s.fsTable f) (hq : q ∈ freeBlks a (tab a s.dev)) (hp : Live s.fsTable p) (hp0 : p ≠ 0)
    (hle : ∀ g : ℤ, 1 ≤ g → g < tableLen → g ≠ f → b g ≤ b' g) (hself : 1 ≤ b' f)
    (hneed : dirNeed a ((dirOf a s.dev p).length + 1) ≤ b' p) (hcap : b' p ≤ 13 + secCap a)
    (hroom : Affords a b') : RoomIn a s f p q := by
  intro t hal
  have hp' := hp.nonneg
  have hon := hal.onFile_self hq
  have hpf : p ≠ f := fun heq => hdead (heq ▸ hp)
  have htight : Tight a t p :=
    (hv.but ∅).tight hon (by omega) hft (Set.notMem_empty p) hp hp0 hpf (h.tight p hp hp0)
  refine fits_of_affords (hal.accounted hq (by omega) hft hdead h.acc) (by omega) hp.lt htight
    (fun g hg _ => ?_) (fun g h1 hgt _ => ?_) hneed hcap hroom
  · obtain ⟨⟨h1, hgt⟩, hlnk, hsec⟩ := mem_longFiles.mp hg
    have hgf : g ≠ f := by
      rintro rfl
      exact hsec (secAddr_firstEntry (by rw [hal.table, setEntry_self]))
    have hent := hon.others g hgf
    have hold : g ∈ longFiles s.fsTable := by
      refine mem_longFiles.mpr ⟨⟨h1, hgt⟩, by rwa [← hent], ?_⟩
      unfold secAddr at hsec ⊢
      rwa [← hent]
    exact (h.long hv hold).trans_le (hle g h1 hgt hgf)
  · by_cases hgf : g = f
    · subst hgf
      obtain ⟨hq1, hqc, hb1, hb7, -⟩ := freeBlk_in hq
      obtain ⟨cl, hok⟩ := hv.free g (by omega) hft hdead
      rw [hal.nodesAt (by omega) hq1 hqc ⟨hb1, hb7⟩ hok.none]
      exact hself
    · rw [nodesAt_other hon (by omega) hft hgf (by omega) hgt]
      exact (h.blks g h1 hgt).trans (hle g h1 hgt hgf)

/-- **Making a file**, after its directory has been looked up. -/
theorem KeepsTo.made {r₁ r₂ : ℤ} (h : KeepsTo a b s) (hv : VolOk a s) (hn : Numbered a) (hok : MakeOk a s path)
    (hfirst : s.clrsCache.fid = devFreeFid a s.fsTable → clrsAt a s.clrsCache 0 = (firstFree a s).1)
    (hpar : fcfsGetPfid a s path = some (p, t)) {now : UInt64} {name : List UInt8} {mode : UInt32}
    (hc : devCreateFile a t now p (devFreeFid a s.fsTable) name mode = some (r₁, u))
    (hi : devInitFile a u (devFreeFid a s.fsTable) = some (r₂, v))
    (hle : ∀ g : ℤ, 1 ≤ g → g < tableLen → g ≠ devFreeFid a s.fsTable → b g ≤ b' g)
    (hself : 1 ≤ b' (devFreeFid a s.fsTable))
    (hneed : p = 0 ∨ dirNeed a ((dirOf a s.dev p).length + 1) ≤ b' p) : KeepsTo a b' v := by
  have hacc := h.acc.made hv hn hok hfirst hpar hc hi
  have hf0 := hok.fid
  obtain ⟨hft, hdead⟩ := devFreeFid_free hn hf0
  obtain ⟨hpt, ⟨x, y, hsteps⟩, hm, hag, hnew⟩ := hv.madeSteps hn hok hfirst hpar hc
  have hlookt := hv.getPfid hpar
  have hvt := hlookt.volOk hv
  have hlook := hlookt.trans hsteps.looked
  have hvx := hsteps.looked.volOk hvt
  have hx := h.of_looked hlook
  obtain ⟨rest, hq⟩ := hsteps.first
  have hin : firstFree a s ∈ freeBlks a (tab a x.dev) := by
    rw [hq]
    exact List.mem_cons_self
  have hony := hsteps.alloced.onFile_self hin
  obtain ⟨ent, cl, hlen, hnd, hokp, hfits, hw⟩ := hsteps.write
  obtain ⟨hp0, hplt⟩ := fid_range hpt
  obtain ⟨r', u', hw', hwritten, -⟩ :=
    hokp.writeDir hsteps.but.mounted hsteps.but.agree hn.clus hnd hp0 hplt ent hfits
  obtain ⟨-, rfl⟩ := Prod.mk.inj (Option.some.inj (hw.symm.trans hw'))
  have hb := hokp.broughtTo_writeDir hsteps.but.mounted hsteps.but.agree hn.clus hnd hp0 hplt hfits hw
  have honu := hwritten.onFile
  obtain ⟨r'', v', hi', honv, hborn, -, htab, -⟩ := hnew.init hm hag (by omega)
  obtain ⟨-, rfl⟩ := Prod.mk.inj (Option.some.inj (hi.symm.trans hi'))
  have hpf : p ≠ devFreeFid a s.fsTable := by
    rintro rfl
    rw [hlookt.table] at hpt
    exact hpt.elim (fun hz => by omega) hdead
  have hpy : p = 0 ∨ Live y.fsTable p := by
    rw [live_congr (hony.others p hpf), hsteps.looked.table]
    exact hpt
  have hbut := hsteps.but.step_file hpy honu hwritten.fileOk fun hne => by
    rw [hwritten.lnk]
    exact hsteps.but.lnk p hpf (hpy.resolve_left hne) hne
  have hlive : ∀ {g}, Live u.fsTable g ↔ Live y.fsTable g := fun {g} => by
    by_cases hgp : g = p
    · subst hgp
      exact ⟨fun hl => ⟨hl.nonneg, hl.lt, hwritten.lnk ▸ hl.lnk⟩,
        fun hl => ⟨hl.nonneg, hl.lt, hwritten.lnk.symm ▸ hl.lnk⟩⟩
    · exact live_congr (honu.others g hgp)
  refine ⟨hacc, fun g hg hg0 => ?_, fun g h1 hgt => ?_⟩
  · by_cases hgf : g = devFreeFid a s.fsTable
    · rw [hgf]
      refine .of_stored hborn.stored ?_
      rw [hborn.nodes]
      exact le_rfl
    · have hgu := (live_congr (honv.others g hgf)).mp hg
      have hgy := hlive.mp hgu
      have hgx := (live_congr (hony.others g hgf)).mp hgy
      have hy := (hvx.but ∅).tight hony (by omega) hft (Set.notMem_empty g) hgx hg0 hgf (hx.tight g hgx hg0)
      have hu : Tight a u g := by
        by_cases hgp : g = p
        · subst hgp
          exact hb.tight hg0 hy
        · exact hsteps.but.tight honu hp0 hplt hgf hgy hg0 hgp hy
      exact hbut.tight honv (by omega) hft hgf hgu hg0 hgf hu
  · rw [htab]
    by_cases hgf : g = devFreeFid a s.fsTable
    · rw [hgf, ← htab, hborn.nodes]
      exact hself
    · have hnodesy := nodesAt_other hony (by omega) hft hgf (by omega) hgt
      have hold := (hx.blks g h1 hgt).trans (hle g h1 hgt hgf)
      by_cases hgp : g = p
      · subst hgp
        have hsize := hb.size
        rw [hlen, hnodesy, hlookt.dev] at hsize
        have hmax := max_le (Int.ofNat_le.mpr hold) (hneed.resolve_left (by omega))
        exact Int.ofNat_le.mp (hsize.le.trans hmax)
      · rw [nodesAt_other honu hp0 hplt hgp (by omega) hgt, hnodesy]
        exact hold

end Make

end Fcfs.Vol
