import Fcfs.Vol.FirstFree
import Fcfs.Vol.Leak
import Fcfs.Vol.LifeCycle
import Mathlib.Algebra.BigOperators.Group.Finset.Basic

/-! # Where the space is

A block behind the root's cluster is free, belongs to a file, or lies in a cluster claimed for a second-level
list. On a formatted volume no run of calls changes this, and the claimed clusters are those of the files that
are there and one for every file that was removed with such a list (`space_accounted`). So space is lost by
these removals and by nothing else. The cases of a call follow what is done to one file (`Reworks`): its
blocks are taken from the free ones and given back, and a cluster is claimed when it first needs one. -/

namespace Fcfs.Vol

/-! ### Blocks by what they carry -/

/-- The numbers below `n` from 1 on: the clusters behind the root's, and the files but the root. -/
def fromOne (n : ℕ) : Finset ℤ := (Finset.range (n - 1)).image fun k : ℕ => (k : ℤ) + 1

/-- The entries of the cluster tables behind the root's. -/
def places (a : Args) : Finset (ℤ × Fin 7) := fromOne a.cluCnt ×ˢ Finset.univ

/-- Those that carry `x`. -/
def carrying (a : Args) (T : ℤ → Fin 7 → BlkEnt) (x : UInt32) : Finset (ℤ × Fin 7) :=
  (places a).filter fun p => (T p.1 p.2).fid = x

/-- The clusters claimed for a second-level list. -/
def claimedClrs (a : Args) (T : ℤ → Fin 7 → BlkEnt) : Finset ℤ :=
  (fromOne a.cluCnt).filter fun c => ∀ i, (T c i).fid = u32 (-1)

/-- The files with a second-level list. -/
def longFiles (t : FcfsTable) : Finset ℤ :=
  (fromOne tableLen).filter fun f => (t.entrs f).lnkCnt ≠ 0 ∧ secAddr t f ≠ 0

section Count
variable {a : Args} {T : ℤ → Fin 7 → BlkEnt}

theorem mem_fromOne {n : ℕ} {x : ℤ} : x ∈ fromOne n ↔ 1 ≤ x ∧ x < n := by
  unfold fromOne
  rw [Finset.mem_image]
  constructor
  · rintro ⟨k, hk, rfl⟩
    have := Finset.mem_range.mp hk
    omega
  · rintro ⟨h1, hlt⟩
    exact ⟨(x - 1).toNat, Finset.mem_range.mpr (by omega), by omega⟩

theorem card_fromOne (n : ℕ) : (fromOne n).card = n - 1 := by
  unfold fromOne
  rw [Finset.card_image_of_injective _ fun i j hij => by simpa using hij, Finset.card_range]

theorem mem_places {p : ℤ × Fin 7} : p ∈ places a ↔ 1 ≤ p.1 ∧ p.1 < a.cluCnt := by
  unfold places
  rw [Finset.mem_product, mem_fromOne]
  exact and_iff_left (Finset.mem_univ _)

theorem mem_claimedClrs {c : ℤ} :
    c ∈ claimedClrs a T ↔ (1 ≤ c ∧ c < a.cluCnt) ∧ ∀ i, (T c i).fid = u32 (-1) := by
  unfold claimedClrs
  rw [Finset.mem_filter, mem_fromOne]

theorem mem_longFiles {t : FcfsTable} {f : ℤ} : f ∈ longFiles t ↔
    (1 ≤ f ∧ f < tableLen) ∧ (t.entrs f).lnkCnt ≠ 0 ∧ secAddr t f ≠ 0 := by
  unfold longFiles
  rw [Finset.mem_filter, mem_fromOne]

theorem card_places (a : Args) : (places a).card = 7 * (a.cluCnt - 1) := by
  unfold places
  rw [Finset.card_product, card_fromOne, Finset.card_univ, Fintype.card_fin, mul_comm]

/-- A list of blocks without repetition counts the entries it stands for. -/
theorem card_carrying {x : UInt32} {l : List (ℤ × ℕ)} (hnd : l.Nodup)
    (h : ∀ p, p ∈ l ↔ (1 ≤ p.1 ∧ p.1 < a.cluCnt) ∧ ∃ i : Fin 7, p.2 = i.val + 1 ∧ (T p.1 i).fid = x) :
    (carrying a T x).card = l.length := by
  have himage : (carrying a T x).image (fun p => (p.1, p.2.val + 1)) = l.toFinset := by
    ext p
    rw [Finset.mem_image, List.mem_toFinset, h]
    constructor
    · rintro ⟨⟨c, i⟩, hin, rfl⟩
      obtain ⟨hplace, hfid⟩ := Finset.mem_filter.mp hin
      exact ⟨mem_places.mp hplace, i, rfl, hfid⟩
    · rintro ⟨hrange, i, hi, hfid⟩
      exact ⟨(p.1, i), Finset.mem_filter.mpr ⟨mem_places.mpr hrange, hfid⟩, Prod.ext rfl hi.symm⟩
  rw [← List.toFinset_card_of_nodup hnd, ← himage, Finset.card_image_of_injective]
  rintro ⟨c, i⟩ ⟨c', i'⟩ heq
  obtain ⟨hc, hi⟩ := Prod.mk.inj heq
  exact Prod.ext hc (Fin.ext (Nat.succ_injective hi))

theorem card_free : (carrying a T 0).card = (freeBlks a T).length :=
  card_carrying (nodup_freeUpTo _ _) fun _ => mem_freeBlks

theorem card_file {f : ℤ} (hf : f ≠ 0) : (carrying a T (u32 f)).card = (nodesAt a T f).length := by
  rw [card_carrying (nodup_nodesAt a T f) fun p => ?_, List.length_map]
  rw [List.mem_map]
  constructor
  · rintro ⟨b, hb, rfl⟩
    obtain ⟨hrange, i, hi, hfid, -⟩ := (mem_nodesAt hf).mp hb
    exact ⟨hrange, i, hi, hfid⟩
  · rintro ⟨hrange, i, hi, hfid⟩
    exact ⟨⟨p.1, p.2, (T p.1 i).num.toNat⟩, (mem_nodesAt hf).mpr ⟨hrange, i, hi, hfid, rfl⟩, rfl⟩

theorem card_claimed (hwhole : ∀ c i, (T c i).fid = u32 (-1) → ∀ j, (T c j).fid = u32 (-1)) :
    (carrying a T (u32 (-1))).card = 7 * (claimedClrs a T).card := by
  have hprod : carrying a T (u32 (-1)) = claimedClrs a T ×ˢ Finset.univ := by
    ext p
    unfold carrying
    rw [Finset.mem_filter, mem_places, Finset.mem_product, mem_claimedClrs]
    constructor
    · rintro ⟨hrange, hfid⟩
      exact ⟨⟨hrange, hwhole _ _ hfid⟩, Finset.mem_univ _⟩
    · rintro ⟨⟨hrange, hall⟩, -⟩
      exact ⟨hrange, hall _⟩
  rw [hprod, Finset.card_product, Finset.card_univ, Fintype.card_fin, mul_comm]

end Count

/-! ### The balance -/

/-- **The space is accounted for**, but for `n` clusters that are lost: an entry is free, a file's or claimed,
a cluster is claimed as a whole, and all but `n` of the claimed ones are of files that are there. -/
structure Accounted (a : Args) (s : St) (n : ℕ) : Prop where
  known : ∀ c : ℤ, 1 ≤ c → c < a.cluCnt → ∀ i, (tab a s.dev c i).fid = 0 ∨
    (∃ f : ℤ, 0 < f ∧ f < tableLen ∧ (tab a s.dev c i).fid = u32 f) ∨ (tab a s.dev c i).fid = u32 (-1)
  whole : ∀ c i, (tab a s.dev c i).fid = u32 (-1) → ∀ j, (tab a s.dev c j).fid = u32 (-1)
  claims : (claimedClrs a (tab a s.dev)).card = (longFiles s.fsTable).card + n

section Balance
variable {a : Args} {s t : St} {f : ℤ} {n : ℕ}

/-- **Every block is counted once.** -/
theorem Accounted.total (h : Accounted a s n) : 7 * (a.cluCnt - 1) = (freeBlks a (tab a s.dev)).length +
    ∑ f ∈ fromOne tableLen, (nodesAt a (tab a s.dev) f).length +
      7 * ((longFiles s.fsTable).card + n) := by
  have hfile : ∀ f : ℤ, f ∈ fromOne tableLen → u32 f ≠ 0 ∧ u32 f ≠ u32 (-1) := by
    intro f hf
    obtain ⟨h1, hlt⟩ := mem_fromOne.mp hf
    exact u32_fid (by omega) hlt
  have hcover : ∀ p ∈ places a, (tab a s.dev p.1 p.2).fid ∈
      insert 0 (insert (u32 (-1)) ((fromOne tableLen).image u32)) := by
    intro p hp
    obtain ⟨h1, hc⟩ := mem_places.mp hp
    rw [Finset.mem_insert, Finset.mem_insert, Finset.mem_image]
    rcases h.known p.1 h1 hc p.2 with hfid | ⟨f, hf0, hft, hfid⟩ | hfid
    · exact Or.inl hfid
    · exact Or.inr (Or.inr ⟨f, mem_fromOne.mpr ⟨hf0, hft⟩, hfid.symm⟩)
    · exact Or.inr (Or.inl hfid)
  have hinj : Set.InjOn u32 (fromOne tableLen) := by
    intro f hf g hg heq
    obtain ⟨hf1, hft⟩ := mem_fromOne.mp hf
    obtain ⟨hg1, hgt⟩ := mem_fromOne.mp hg
    unfold tableLen at hft hgt
    exact (u32_inj (by omega) (by omega) (by omega) (by omega)).mp heq
  have hclaim : u32 (-1) ∉ (fromOne tableLen).image u32 := by
    rw [Finset.mem_image]
    rintro ⟨f, hf, heq⟩
    exact (hfile f hf).2 heq
  have hzero : (0 : UInt32) ∉ insert (u32 (-1)) ((fromOne tableLen).image u32) := by
    rw [Finset.mem_insert, Finset.mem_image]
    rintro (heq | ⟨f, hf, heq⟩)
    · exact absurd heq (by decide)
    · exact (hfile f hf).1 heq
  have hsum : ∑ f ∈ fromOne tableLen, (carrying a (tab a s.dev) (u32 f)).card =
      ∑ f ∈ fromOne tableLen, (nodesAt a (tab a s.dev) f).length :=
    Finset.sum_congr rfl fun f hf => card_file (by have := (mem_fromOne.mp hf).1; omega)
  rw [← card_places, Finset.card_eq_sum_card_fiberwise hcover, Finset.sum_insert hzero,
    Finset.sum_insert hclaim, Finset.sum_image hinj]
  show (carrying a (tab a s.dev) 0).card + ((carrying a (tab a s.dev) (u32 (-1))).card +
    ∑ f ∈ fromOne tableLen, (carrying a (tab a s.dev) (u32 f)).card) = _
  rw [card_free, card_claimed h.whole, h.claims, hsum]
  omega

theorem Accounted.congr (h : Accounted a s n) (hdev : tab a t.dev = tab a s.dev)
    (hlong : longFiles t.fsTable = longFiles s.fsTable) : Accounted a t n := by
  refine ⟨?_, ?_, ?_⟩
  · rw [hdev]
    exact h.known
  · rw [hdev]
    exact h.whole
  · rw [hdev, hlong]
    exact h.claims

theorem Formatted.accounted (h : Formatted a s) : Accounted a s 0 := by
  have hfree : ∀ c i, (tab a s.dev c i).fid ≠ u32 (-1) := fun c i heq => by
    rw [h.allFree c i] at heq
    exact absurd heq (by decide)
  have hnone : claimedClrs a (tab a s.dev) = ∅ :=
    Finset.eq_empty_of_forall_notMem fun c hc => hfree c 0 ((mem_claimedClrs.mp hc).2 0)
  have hshort : longFiles s.fsTable = ∅ := by
    refine Finset.eq_empty_of_forall_notMem fun f hf => ?_
    obtain ⟨⟨h1, hlt⟩, hlnk, -⟩ := mem_longFiles.mp hf
    exact hlnk (h.entrs f (by omega) hlt).lnk
  exact ⟨fun c _ _ i => Or.inl (h.allFree c i), fun c i heq => absurd heq (hfree c i), by rw [hnone, hshort]; rfl⟩

end Balance

/-! ### Work on one file -/

/-- **What work on a file does to the entries**: those it takes were free or the file's, and are so afterwards,
or claimed. -/
def Reworks (a : Args) (f : ℤ) (s t : St) : Prop := ∀ c i, tab a t.dev c i = tab a s.dev c i ∨
  Mine f (tab a s.dev c i).fid ∧ (Mine f (tab a t.dev c i).fid ∨ (tab a t.dev c i).fid = u32 (-1))

section Steps
variable {a : Args} {s t : St} {f : ℤ} {m n : ℕ}

theorem OnFile.reworks (h : OnFile a f s t) : Reworks a f s t := fun c i => (h.tabs c i).imp_right And.right

theorem not_mine_claimed (h0 : 0 ≤ f) (hft : f < tableLen) : ¬ Mine f (u32 (-1)) := by
  rintro (hz | hfid)
  · exact absurd hz (by decide)
  · rcases h0.eq_or_lt with rfl | hpos
    · exact absurd hfid (by decide)
    · exact (u32_fid hpos hft).2 hfid.symm

/-- The files with a second-level list are told by the links and the address clusters. -/
theorem longFiles_congr {T T' : FcfsTable} (h : ∀ g : ℤ, 1 ≤ g → g < tableLen →
    ((T'.entrs g).lnkCnt ≠ 0 ∧ secAddr T' g ≠ 0 ↔ (T.entrs g).lnkCnt ≠ 0 ∧ secAddr T g ≠ 0)) :
    longFiles T' = longFiles T :=
  Finset.filter_congr fun g hg => h g (mem_fromOne.mp hg).1 (mem_fromOne.mp hg).2

section Work
variable (hr : Reworks a f s t) (h0 : 0 ≤ f) (hft : f < tableLen)
include hr h0 hft

theorem Reworks.claimed {c : ℤ} {i : Fin 7} (hfid : (tab a s.dev c i).fid = u32 (-1)) :
    (tab a t.dev c i).fid = u32 (-1) := by
  rcases hr c i with heq | ⟨hmine, -⟩
  · rw [heq]
    exact hfid
  · rw [hfid] at hmine
    exact absurd hmine (not_mine_claimed h0 hft)

variable (h : Accounted a s n) (hcl : ClaimsOnly a f s t) (hown : SecOwned a t f)
include h hcl hown

/-- **The clusters claimed afterwards** are those claimed before, and the file's address cluster. -/
theorem Accounted.claimedClrs_eq : claimedClrs a (tab a t.dev) = if secAddr t.fsTable f = 0
    then claimedClrs a (tab a s.dev) else insert (secAddr t.fsTable f) (claimedClrs a (tab a s.dev)) := by
  have hkept : ∀ {c i}, (tab a s.dev c i).fid = u32 (-1) → (tab a t.dev c i).fid = u32 (-1) :=
    hr.claimed h0 hft
  split_ifs with hz
  · ext c
    rw [mem_claimedClrs, mem_claimedClrs]
    refine and_congr_right fun _ => ⟨fun hall i => ?_, fun hall i => hkept (hall i)⟩
    rcases hcl c i (hall i) with hold | ⟨hc, hne⟩
    · exact hold
    · exact absurd (hc.trans hz) hne
  · obtain ⟨hs0, hsc⟩ := hown.range hz
    ext c
    rw [Finset.mem_insert, mem_claimedClrs, mem_claimedClrs]
    constructor
    · rintro ⟨hrange, hall⟩
      rcases hcl c 0 (hall 0) with hold | ⟨hc, -⟩
      · exact Or.inr ⟨hrange, h.whole c 0 hold⟩
      · exact Or.inl hc
    · rintro (rfl | ⟨hrange, hall⟩)
      · exact ⟨⟨by omega, hsc⟩, hown.resolve_left hz⟩
      · exact ⟨hrange, fun i => hkept (hall i)⟩

/-- **Work on a file keeps the balance**, if it is right about the file's cluster. -/
theorem Accounted.step (hcount : (if secAddr t.fsTable f = 0 then claimedClrs a (tab a s.dev)
    else insert (secAddr t.fsTable f) (claimedClrs a (tab a s.dev))).card = (longFiles t.fsTable).card + m) :
    Accounted a t m := by
  refine ⟨fun c h1 hc i => ?_, fun c i hfid j => ?_, by rw [h.claimedClrs_eq hr h0 hft hcl hown, hcount]⟩
  · rcases hr c i with heq | ⟨-, hmine | hclaim⟩
    · rw [heq]
      exact h.known c h1 hc i
    · rcases hmine with hz | hfid
      · exact Or.inl hz
      · rcases h0.eq_or_lt with rfl | hpos
        · exact Or.inl hfid
        · exact Or.inr (Or.inl ⟨f, hpos, hft, hfid⟩)
    · exact Or.inr (Or.inr hclaim)
  · rcases hcl c i hfid with hold | ⟨rfl, hne⟩
    · exact hr.claimed h0 hft (h.whole c i hold j)
    · exact hown.resolve_left hne j

end Work

theorem SecOwned.mem_claimedClrs (h : SecOwned a s f) (hne : secAddr s.fsTable f ≠ 0) :
    secAddr s.fsTable f ∈ claimedClrs a (tab a s.dev) := by
  obtain ⟨hs0, hsc⟩ := h.range hne
  exact Vol.mem_claimedClrs.mpr ⟨⟨by omega, hsc⟩, h.resolve_left hne⟩

/-- **Writing to a file keeps the balance**: the first address cluster makes it one with a second-level list. -/
theorem Written.accounted {need : ℤ} {cl : List ℤ} (hw : Written a f need s t) (hok : FileOk a s f cl)
    (hf : f = 0 ∨ Live s.fsTable f) (h : Accounted a s n) : Accounted a t n := by
  obtain ⟨h0, hft⟩ := fid_range hf
  obtain ⟨cl', -, hok', -⟩ := hw.ok
  have hon := hw.onFile
  have hother : ∀ g, g ≠ f → t.fsTable.entrs g = s.fsTable.entrs g := hon.others
  refine h.step hon.reworks h0 hft hw.claims hok'.owned ?_
  by_cases hsame : secAddr t.fsTable f = secAddr s.fsTable f
  · have hlong : longFiles t.fsTable = longFiles s.fsTable := by
      refine longFiles_congr fun g _ _ => ?_
      by_cases hg : g = f
      · rw [hg, hw.lnk, hsame]
      · unfold secAddr
        rw [hother g hg]
    rw [hlong, hsame, ← h.claims]
    split_ifs with hz
    · rfl
    · rw [Finset.insert_eq_of_mem (hok.owned.mem_claimedClrs hz)]
  · -- a cluster has been claimed
    have hs : secAddr s.fsTable f = 0 := by_contra fun hs => hsame (hw.addr hs)
    have hz : secAddr t.fsTable f ≠ 0 := fun hz => hsame (hz.trans hs.symm)
    have hf0 : f ≠ 0 := by
      rintro rfl
      exact hz (hok'.root rfl).1.secAddr_eq
    have hlive := hf.resolve_left hf0
    have hnew : secAddr t.fsTable f ∉ claimedClrs a (tab a s.dev) := by
      intro hin
      have hmine := ((hon.addr.resolve_left hsame).resolve_left hz) 0
      rw [(Vol.mem_claimedClrs.mp hin).2 0] at hmine
      exact not_mine_claimed h0 hft hmine
    have hlong : longFiles t.fsTable = insert f (longFiles s.fsTable) := by
      ext g
      rw [Finset.mem_insert, mem_longFiles, mem_longFiles]
      by_cases hg : g = f
      · rw [hg, hw.lnk]
        exact iff_of_true ⟨⟨by omega, hft⟩, hlive.lnk, hz⟩ (Or.inl rfl)
      · unfold secAddr
        rw [hother g hg]
        exact (or_iff_right hg).symm
    have hshort : f ∉ longFiles s.fsTable := fun hin => (mem_longFiles.mp hin).2.2 hs
    rw [if_neg hz, Finset.card_insert_of_notMem hnew, hlong, Finset.card_insert_of_notMem hshort, h.claims]
    omega

/-- **Taking the first block of a file keeps the balance**: there was no file, and it has no second-level list. -/
theorem Alloced.accounted {q : ℤ × ℕ} (hal : Alloced a f q s t) (hq : q ∈ freeBlks a (tab a s.dev)) (hf0 : 0 < f)
    (hft : f < tableLen) (hdead : ¬ Live s.fsTable f) (h : Accounted a s n) : Accounted a t n := by
  have hon := hal.onFile_self hq
  have hz : secAddr t.fsTable f = 0 := secAddr_firstEntry (by rw [hal.table, setEntry_self])
  have hcl : ClaimsOnly a f s t := by
    intro c i hfid
    rw [hal.tabs] at hfid
    split_ifs at hfid
    · exact absurd hfid (u32_fid hf0 hft).2
    · exact Or.inl hfid
  refine h.step hon.reworks (by omega) hft hcl (Or.inl hz) ?_
  have hlong : longFiles t.fsTable = longFiles s.fsTable := by
    refine longFiles_congr fun g h1 hlt => ?_
    by_cases hg : g = f
    · rw [hg]
      exact iff_of_false (fun hin => hin.2 hz) fun hin => hdead ⟨by omega, hft, hin.1⟩
    · unfold secAddr
      rw [hon.others g hg]
  rw [if_pos hz, h.claims, hlong]

/-- The clusters that are lost when the file is removed. -/
def lostWith (s : St) (f : ℤ) : ℕ := if f = 0 ∨ secAddr s.fsTable f = 0 then 0 else 1

/-- **Removing a file loses its address cluster**, and nothing else. -/
theorem Removed.accounted {p : ℤ} (hrm : Removed a f p s t) (hv : VolOk a s) (hvt : VolOk a t)
    (hlive : Live s.fsTable f) (hf0 : f ≠ 0) (h : Accounted a s n) : Accounted a t (n + lostWith s f) := by
  have h0 := hlive.nonneg
  have hft := hlive.lt
  have hsame : secAddr t.fsTable f = secAddr s.fsTable f := by
    unfold secAddr
    rw [hrm.entry]
    rfl
  have hzero : (t.fsTable.entrs f).lnkCnt = 0 := by
    rw [hrm.entry]
    unfold unlinked
    rw [hv.lnk f hlive hf0]
    rfl
  have hr : Reworks a f s t := by
    intro c i
    rw [hrm.tabs]
    unfold cleared
    split_ifs with hfid
    · exact Or.inr ⟨Or.inr hfid, Or.inl (Or.inl rfl)⟩
    · exact Or.inl rfl
  have hcl : ClaimsOnly a f s t := by
    intro c i hfid
    rw [hrm.tabs] at hfid
    unfold cleared at hfid
    split_ifs at hfid
    · exact absurd hfid (by decide)
    · exact Or.inl hfid
  refine h.step hr h0 hft hcl (hvt.owned h0 hft) ?_
  rw [hsame]
  by_cases hz : secAddr s.fsTable f = 0
  · have hlong : longFiles t.fsTable = longFiles s.fsTable := by
      refine longFiles_congr fun g h1 hlt => ?_
      by_cases hg : g = f
      · rw [hg, hsame]
        exact iff_of_false (fun hin => hin.2 hz) fun hin => hin.2 hz
      · unfold secAddr
        rw [hrm.others g hg]
    unfold lostWith
    rw [if_pos hz, if_pos (Or.inr hz), h.claims, hlong, add_zero]
  · have hlong : longFiles t.fsTable = (longFiles s.fsTable).erase f := by
      ext g
      rw [Finset.mem_erase, mem_longFiles, mem_longFiles]
      by_cases hg : g = f
      · rw [hg]
        exact iff_of_false (fun hin => hin.2.1 hzero) fun hin => hin.1 rfl
      · unfold secAddr
        rw [hrm.others g hg]
        exact (and_iff_right hg).symm
    have hin : f ∈ longFiles s.fsTable := mem_longFiles.mpr ⟨⟨by omega, hft⟩, hlive.lnk, hz⟩
    have hcard := Finset.card_erase_add_one hin
    unfold lostWith
    rw [if_neg hz, if_neg (not_or.mpr ⟨hf0, hz⟩),
      Finset.insert_eq_of_mem ((hv.owned h0 hft).mem_claimedClrs hz), h.claims, hlong]
    omega

end Steps

/-! ### Calls -/

/-- The clusters a call loses: those of the file it removes. -/
def losesCluster (a : Args) (s : St) : Call → ℕ
  | .unlink path => ((fcfsGetFid a s path).map fun r => lostWith s r.1).getD 0
  | .rmdir path => ((fcfsGetFid a s path).map fun r => lostWith s r.1).getD 0
  | _ => 0

/-- The clusters a run of calls loses. -/
def lostBy (a : Args) : List Call → St → ℕ
  | [], _ => 0
  | c :: cs, s => losesCluster a s c + ((c.run a s).map fun r => lostBy a cs r.2).getD 0

section Calls
variable {a : Args} {s t u : St} {path : Path} {r : ℤ} {n : ℕ}

theorem lostBy_cons {c : Call} {rep : Reply} (h : c.run a s = some (rep, t)) (cs : List Call) :
    lostBy a (c :: cs) s = losesCluster a s c + lostBy a cs t := by
  show losesCluster a s c + ((c.run a s).map fun r => lostBy a cs r.2).getD 0 = _
  rw [h]
  rfl

theorem losesCluster_unlink {f : ℤ} (h : fcfsGetFid a s path = some (f, t)) :
    losesCluster a s (.unlink path) = lostWith s f := by
  show ((fcfsGetFid a s path).map fun r => lostWith s r.1).getD 0 = lostWith s f
  rw [h]
  rfl

theorem Accounted.of_looked (h : Accounted a s n) (hlook : Looked a s t) : Accounted a t n :=
  h.congr (by rw [hlook.dev]) (by rw [hlook.table])

theorem Accounted.made {p r₁ r₂ : ℤ} {v : St} (h : Accounted a s n) (hv : VolOk a s) (hn : Numbered a)
    (hok : MakeOk a s path)
    (hfirst : s.clrsCache.fid = devFreeFid a s.fsTable → clrsAt a s.clrsCache 0 = (firstFree a s).1)
    (hpar : fcfsGetPfid a s path = some (p, t)) {now : UInt64} {name : List UInt8} {mode : UInt32}
    (hc : devCreateFile a t now p (devFreeFid a s.fsTable) name mode = some (r₁, u))
    (hi : devInitFile a u (devFreeFid a s.fsTable) = some (r₂, v)) : Accounted a v n := by
  have hf0 := hok.fid
  obtain ⟨hft, hdead⟩ := devFreeFid_free hn hf0
  obtain ⟨hpt, ⟨x, y, hsteps⟩, hm, hag, hnew⟩ := hv.madeSteps hn hok hfirst hpar hc
  have hlook := (hv.getPfid hpar).trans hsteps.looked
  have hdeadx : ¬ Live x.fsTable (devFreeFid a s.fsTable) := by
    rw [hlook.table]
    exact hdead
  obtain ⟨rest, hq⟩ := hsteps.first
  have hin : firstFree a s ∈ freeBlks a (tab a x.dev) := by
    rw [hq]
    exact List.mem_cons_self
  -- the first block, the directory's entry, and the size
  have hy := hsteps.alloced.accounted hin hf0 hft hdeadx (h.of_looked hlook)
  obtain ⟨ent, cl, -, hnd, hokp, hfits, hw⟩ := hsteps.write
  obtain ⟨hp0, hplt⟩ := fid_range hpt
  obtain ⟨r', u', hw', hwritten, -⟩ :=
    hokp.writeDir hsteps.but.mounted hsteps.but.agree hn.clus hnd hp0 hplt ent hfits
  obtain ⟨-, rfl⟩ := Prod.mk.inj (Option.some.inj (hw.symm.trans hw'))
  have hpy : p = 0 ∨ Live y.fsTable p := by
    have hpf : p ≠ devFreeFid a s.fsTable := by
      rintro rfl
      exact hpt.elim (fun hz => by omega) fun hl => hdeadx (by rw [hsteps.looked.table]; exact hl)
    rw [live_congr ((hsteps.alloced.onFile_self hin).others p hpf), hsteps.looked.table]
    exact hpt
  have hu := hwritten.accounted hokp hpy hy
  obtain ⟨r'', v', hi', hon, hborn, -, htab, -⟩ := hnew.init hm hag (by omega)
  obtain ⟨-, rfl⟩ := Prod.mk.inj (Option.some.inj (hi.symm.trans hi'))
  refine hu.congr htab (longFiles_congr fun g _ _ => ?_)
  by_cases hg : g = devFreeFid a s.fsTable
  · rw [hg]
    exact iff_of_false (fun hl => hl.2 hborn.sec) fun hl => hl.2 hnew.sec
  · unfold secAddr
    rw [hon.others g hg]

theorem Accounted.make (h : Accounted a s n) (hv : VolOk a s) (hn : Numbered a) (hok : MakeOk a s path)
    (hforget : Forgotten s (devFreeFid a s.fsTable) (firstFree a s)) {now : UInt64} {mode : UInt32}
    {out : Option (ℤ × St)} (hout : out = opsCreate a now s path mode ∨ out = opsMkdir a now s path mode)
    (hop : out = some (r, t)) : Accounted a t n := by
  have hfirst := hforget.first hv.mounted hok.first_mem
  rcases hout with rfl | rfl
  · obtain ⟨⟨p, u⟩, hpar, hop⟩ := Option.bind_eq_some_iff.mp hop
    obtain ⟨name, -, hop⟩ := Option.bind_eq_some_iff.mp hop
    obtain ⟨⟨r₁, v⟩, hc, hop⟩ := Option.bind_eq_some_iff.mp hop
    obtain ⟨⟨r₂, w⟩, hi, hop⟩ := Option.bind_eq_some_iff.mp hop
    obtain ⟨-, rfl⟩ := Prod.mk.inj (Option.some.inj hop)
    rw [(hv.getPfid hpar).table] at hc hi
    exact h.made hv hn hok hfirst hpar hc hi
  · obtain ⟨name, -, hop⟩ := Option.bind_eq_some_iff.mp hop
    obtain ⟨⟨p, u⟩, hpar, hop⟩ := Option.bind_eq_some_iff.mp hop
    obtain ⟨⟨r₁, v⟩, hc, hop⟩ := Option.bind_eq_some_iff.mp hop
    obtain ⟨⟨r₂, w⟩, hi, hop⟩ := Option.bind_eq_some_iff.mp hop
    obtain ⟨-, rfl⟩ := Prod.mk.inj (Option.some.inj hop)
    exact h.made hv hn hok hfirst hpar hc hi

theorem Accounted.unlink (h : Accounted a s n) (hv : VolOk a s) (hn : Numbered a) (hok : RemoveOk a s path)
    (hop : opsUnlink a s path = some (r, t)) : Accounted a t (n + losesCluster a s (.unlink path)) := by
  obtain ⟨⟨f, u⟩, hfid, hrest⟩ := Option.bind_eq_some_iff.mp hop
  obtain ⟨⟨p, v⟩, hpar, hrest⟩ := Option.bind_eq_some_iff.mp hrest
  have hlooku := hv.getFid hfid
  have hlook := hlooku.trans ((hlooku.volOk hv).getPfid hpar)
  rw [losesCluster_unlink hfid]
  by_cases hf0 : f = 0
  · -- nothing is done to the root
    obtain ⟨⟨r', w⟩, hrm, hrest⟩ := Option.bind_eq_some_iff.mp hrest
    obtain ⟨-, rfl⟩ := Prod.mk.inj (Option.some.inj hrest)
    unfold devRmFile at hrm
    rw [if_pos hf0] at hrm
    obtain ⟨-, rfl⟩ := Prod.mk.inj (Option.some.inj hrm)
    unfold lostWith
    rw [if_pos (Or.inl hf0)]
    exact h.of_looked hlook
  · obtain ⟨hlive, hp, hne⟩ := (hok f u p v hfid hpar).resolve_left hf0
    obtain ⟨w, hop', hvw, hremoved⟩ := hv.remove hn hfid hpar hlive hf0 hp hne
    obtain ⟨-, rfl⟩ := Prod.mk.inj (Option.some.inj (hop.symm.trans hop'))
    rw [← hlook.table] at hlive
    have hend := hremoved.accounted (hlook.volOk hv) hvw hlive hf0 (h.of_looked hlook)
    unfold lostWith at hend ⊢
    rw [hlook.table] at hend
    exact hend

/-- **A call the driver can serve loses no space** but with the file it removes. -/
theorem Accounted.call (h : Accounted a s n) (hv : VolOk a s) (hn : Numbered a) {c : Call} (hc : Servable a s c)
    {rep : Reply} (hrun : c.run a s = some (rep, t)) : Accounted a t (n + losesCluster a s c) := by
  cases c with
  | mkdir now path mode =>
    obtain ⟨⟨r, u⟩, hop, heq⟩ := Option.map_eq_some_iff.mp hrun
    obtain ⟨-, rfl⟩ := Prod.mk.inj heq
    exact h.make hv hn hc.1 hc.2 (Or.inr rfl) hop
  | create now path mode =>
    obtain ⟨⟨r, u⟩, hop, heq⟩ := Option.map_eq_some_iff.mp hrun
    obtain ⟨-, rfl⟩ := Prod.mk.inj heq
    exact h.make hv hn hc.1 hc.2 (Or.inl rfl) hop
  | unlink path =>
    obtain ⟨⟨r, u⟩, hop, heq⟩ := Option.map_eq_some_iff.mp hrun
    obtain ⟨-, rfl⟩ := Prod.mk.inj heq
    exact h.unlink hv hn hc hop
  | rmdir path =>
    obtain ⟨⟨r, u⟩, hop, heq⟩ := Option.map_eq_some_iff.mp hrun
    obtain ⟨-, rfl⟩ := Prod.mk.inj heq
    exact h.unlink hv hn hc hop
  | write path data size offset fh =>
    obtain ⟨⟨f, u⟩, hfid, hrun⟩ := Option.bind_eq_some_iff.mp hrun
    obtain ⟨⟨r, v⟩, hop, hrun⟩ := Option.bind_eq_some_iff.mp hrun
    obtain ⟨-, rfl⟩ := Prod.mk.inj (Option.some.inj hrun)
    have hlook := hv.writeFid hfid
    have hvu := hlook.volOk hv
    obtain ⟨hf, hfits⟩ := hc.file f u hfid
    rw [← hlook.table] at hf
    obtain ⟨cl, hnd, hok⟩ := hvu.files f hf
    obtain ⟨w, hop', -, hw, -⟩ := hvu.write hn.clus hf hfid data hc.int hfits
    obtain ⟨-, rfl⟩ := Prod.mk.inj (Option.some.inj (hop.symm.trans hop'))
    exact hw.accounted hok hf (h.of_looked hlook)
  | _ =>
    have hsame := sameVol_call (by trivial) hrun
    exact h.congr (by rw [hsame.dev]) (by rw [hsame.table])

/-- **A run** loses what its removals lose. The induction is on the calls. -/
theorem Accounted.replies (hn : Numbered a) : ∀ (cs : List Call) {s t : St} {rs : List Reply} {n : ℕ},
    Accounted a s n → VolOk a s → ServableAll a cs s → replies a cs s = some (rs, t) →
    Accounted a t (n + lostBy a cs s)
  | [], s, t, rs, n, h, _, _, hrun => by
    obtain ⟨-, rfl⟩ := Prod.mk.inj (Option.some.inj hrun)
    exact h
  | c :: cs, s, t, rs, n, h, hv, hok, hrun => by
    obtain ⟨hc, hrest⟩ := hok
    obtain ⟨⟨r, u⟩, hcall, hrun⟩ := Option.bind_eq_some_iff.mp hrun
    obtain ⟨⟨rs', v⟩, hcalls, heq⟩ := Option.bind_eq_some_iff.mp hrun
    obtain ⟨-, rfl⟩ := Prod.mk.inj (Option.some.inj heq)
    have hend := Accounted.replies hn cs (h.call hv hn hc hcall) (hv.call hn hc hcall) (hrest r u hcall) hcalls
    rw [lostBy_cons hcall, ← Nat.add_assoc]
    exact hend

end Calls

/-- **Every block of the volume is accounted for**: after any run of calls on a formatted volume, the blocks
behind the root's cluster are the free ones, those of the files, and those of the clusters claimed for the
second-level lists of the files that are there and of those that were removed with one. -/
theorem space_accounted {a : Args} {s t : St} (hfresh : Formatted a s) (hn : Numbered a) {cs : List Call}
    {rs : List Reply} (hcs : ServableAll a cs s) (hrun : replies a cs s = some (rs, t)) :
    7 * (a.cluCnt - 1) = (freeBlks a (tab a t.dev)).length +
      ∑ f ∈ fromOne tableLen, (nodesAt a (tab a t.dev) f).length +
        7 * ((longFiles t.fsTable).card + lostBy a cs s) := by
  have h := hfresh.accounted.replies hn cs hfresh.volOk hcs hrun
  rw [Nat.zero_add] at h
  exact h.total

/-- A file that is made, written to until it has a second-level list, and removed, loses a cluster. -/
theorem Lifetime.calls {a : Args} {s s₁ s₂ s₃ : St} {need : ℤ} (h : Lifetime a need s s₁ s₂ s₃) (hneed : 91 < need) :
    ∃ cs rs, ServableAll a cs s ∧ replies a cs s = some (rs, s₃) ∧ lostBy a cs s = 1 := by
  obtain ⟨r, hmade⟩ := h.made
  obtain ⟨path, data, size, offset, fh, t, hfid, hok, hwrite⟩ := h.wrote
  obtain ⟨r', hgone⟩ := h.gone
  obtain ⟨u, hfound⟩ := h.found
  have hmake : (Call.create 0 (rootName 97) 0).run a s = some (.code r, s₁) :=
    Option.map_eq_some_iff.mpr ⟨_, hmade, rfl⟩
  have hput : (Call.write path data size offset fh).run a s₁ = some (.handle size 1, s₂) :=
    Option.bind_eq_some_iff.mpr ⟨_, hfid, Option.bind_eq_some_iff.mpr ⟨_, hwrite, rfl⟩⟩
  have hremove : (Call.unlink (rootName 97)).run a s₂ = some (.code r', s₃) :=
    Option.map_eq_some_iff.mpr ⟨_, hgone, rfl⟩
  refine ⟨[.create 0 (rootName 97) 0, .write path data size offset fh, .unlink (rootName 97)], _,
    ⟨⟨h.make, h.forgotten⟩, fun r₁ t₁ hrun => ?_⟩,
    replies_cons hmake (replies_cons hput (replies_cons hremove (replies_nil _ _))), ?_⟩
  · obtain ⟨-, rfl⟩ := Prod.mk.inj (Option.some.inj (hmake.symm.trans hrun))
    refine ⟨hok, fun r₂ t₂ hrun' => ?_⟩
    obtain ⟨-, rfl⟩ := Prod.mk.inj (Option.some.inj (hput.symm.trans hrun'))
    exact ⟨h.remove, fun _ _ _ => trivial⟩
  · rw [lostBy_cons hmake, lostBy_cons hput, lostBy_cons hremove, losesCluster_unlink hfound]
    unfold lostWith
    rw [if_neg (not_or.mpr ⟨one_ne_zero, h.secAddr hneed⟩)]
    rfl

/-- A file of ninety-three blocks on a volume of seventeen clusters: seven blocks are lost with it. -/
theorem space_accounted_wide : ∃ cs rs t, replies wideArgs cs (freshSt wideHead 0) = some (rs, t) ∧
    7 * 16 = (freeBlks wideArgs (tab wideArgs t.dev)).length +
      ∑ f ∈ fromOne tableLen, (nodesAt wideArgs (tab wideArgs t.dev) f).length +
        7 * ((longFiles t.fsTable).card + 1) := by
  have hn : Numbered wideArgs := ⟨by decide, by decide⟩
  have hneed : writeNeed wideArgs 94208 0 = 93 := by decide
  obtain ⟨s₁, s₂, s₃, h⟩ := formatted_wide.lifetime hn (by decide) (by decide)
    (show 0 + 4 + 94208 < 2 ^ 31 by decide) (by rw [hneed]; decide) (by rw [hneed]; decide)
  obtain ⟨cs, rs, hcs, hrun, hlost⟩ := h.calls (by rw [hneed]; decide)
  have hspace := space_accounted formatted_wide hn hcs hrun
  rw [hlost, cluCnt_wideArgs] at hspace
  exact ⟨cs, rs, s₃, hrun, hspace⟩

end Fcfs.Vol
