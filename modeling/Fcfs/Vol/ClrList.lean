import Fcfs.Vol.SecList

/-! # The cluster list of a file

A file's list of clusters is `Anchored` in its table entry: the direct slots carry the first
thirteen, slot 13 is 0 while they suffice and otherwise names a cluster claimed for the rest. It is
`Stored` when the words in that cluster are the rest, and `Loaded` when the cache holds all of it.

`dev_tbl_clrs_cnt` loads a stored list (`devTblClrsCnt_eq`), `dev_tbl_clrs_get` reads a loaded one
(`devTblClrsGet_eq`), and `dev_tbl_clrs_add` appends to it. What the last does to the volume is said
by `Ext`, which composes: at most one wholly free cluster is claimed, and no block is written but
the first six of the address cluster. -/

namespace Fcfs.Vol

open Lib.Bytes

/-- The cluster number in slot 13. -/
def secAddr (t : FcfsTable) (f : ℤ) : ℤ := ((t.entrs f).clrs 13).toNat

/-- The entries of a claimed cluster. -/
def claimed (i : Fin 7) : BlkEnt := ⟨u32 (-1), UInt32.ofNat i⟩

/-- The number of a cluster that can hold second-level words. -/
structure SecClu (a : Args) (cid : ℤ) : Prop where
  pos : 1 ≤ cid
  lt : cid < a.cluCnt

/-- **The file's cluster list as the table entry has it.** -/
structure Anchored (a : Args) (t : FcfsTable) (f : ℤ) (cl : List ℤ) : Prop where
  slots : ∀ i < 13, (((t.entrs f).clrs i).toNat : ℤ) = cl.getD i 0
  range : ∀ c ∈ cl, 1 ≤ c ∧ c < a.cluCnt
  bound : cl.length ≤ s1Len a
  short : cl.length ≤ 13 → secAddr t f = 0
  long : 13 < cl.length → SecClu a (secAddr t f)

/-- **The file's cluster list as it can be read back.** -/
structure Stored (a : Args) (d : Dev) (t : FcfsTable) (f : ℤ) (cl : List ℤ) : Prop
    extends Anchored a t f cl where
  cap : cl.length ≤ 13 + secCap a
  words : 13 < cl.length → SecWords a d (secAddr t f) (cl.drop 13)

/-- The list as the table entry has it, whatever its numbers name. -/
structure Slotted (a : Args) (t : FcfsTable) (f : ℤ) (cl : List ℤ) : Prop where
  slots : ∀ i < 13, (((t.entrs f).clrs i).toNat : ℤ) = cl.getD i 0
  pos : ∀ c ∈ cl, 1 ≤ c
  bound : cl.length ≤ s1Len a
  short : cl.length ≤ 13 → secAddr t f = 0
  long : 13 < cl.length → SecClu a (secAddr t f)

section Slotted
variable {a : Args} {t : FcfsTable} {f : ℤ} {cl : List ℤ}

theorem Anchored.slotted (h : Anchored a t f cl) : Slotted a t f cl :=
  ⟨h.slots, fun c hc => (h.range c hc).1, h.bound, h.short, h.long⟩

theorem Slotted.anchored (h : Slotted a t f cl) (hr : ∀ c ∈ cl, c < a.cluCnt) : Anchored a t f cl :=
  ⟨h.slots, fun c hc => ⟨h.pos c hc, hr c hc⟩, h.bound, h.short, h.long⟩

theorem Slotted.word_ne (h : Slotted a t f cl) (hlong : 13 < cl.length) : (t.entrs f).clrs 13 ≠ 0 := by
  intro hz
  have hpos := (h.long hlong).pos
  unfold secAddr at hpos
  rw [hz] at hpos
  simp at hpos

theorem Slotted.word_eq (h : Slotted a t f cl) (hshort : cl.length ≤ 13) :
    (t.entrs f).clrs 13 = 0 := by
  have hs := h.short hshort
  unfold secAddr at hs
  exact UInt16.toNat_inj.mp (by simpa using hs)

end Slotted

/-! ### The list that is stored -/

/-- The direct clusters in the table: those before the first 0, and of the root cluster 0. -/
def directClrs (t : FcfsTable) (f : ℤ) : List ℤ :=
  if f = 0 then [0]
  else ((List.range 13).map fun i => (((t.entrs f).clrs i).toNat : ℤ)).takeWhile (· ≠ 0)

/-- The cluster list in the table, with what is stored in the address cluster. -/
def tableClrs (a : Args) (s : St) (f : ℤ) : Option (List ℤ) :=
  if secAddr s.fsTable f = 0 then some (directClrs s.fsTable f)
  else do
    let (n, w) ← devTblLoadSec a s.dev (secAddr s.fsTable f)
    some (directClrs s.fsTable f ++ (List.range n).map fun j => ((w j).toNat : ℤ))

section Stored
variable {a : Args} {d : Dev} {t : FcfsTable} {f : ℤ} {cl : List ℤ}

/-- The slots up to the first 0 are the start of a list without one. -/
theorem takeWhile_getD {l : List ℤ} (h : ∀ c ∈ l, c ≠ 0) (n : ℕ) :
    ((List.range n).map fun i => l.getD i 0).takeWhile (· ≠ 0) = l.take n := by
  induction n generalizing l with
  | zero => simp
  | succ n ih =>
    rw [List.range_succ_eq_map, List.map_cons, List.map_map]
    cases l with
    | nil => simp
    | cons c l =>
      have hc : c ≠ 0 := h c List.mem_cons_self
      have hrec := ih fun x hx => h x (List.mem_cons_of_mem _ hx)
      rw [List.takeWhile_cons_of_pos (by simpa using hc), List.take_succ_cons]
      exact congrArg (c :: ·) hrec

theorem Slotted.directClrs (h : Slotted a t f cl) (hf : f ≠ 0) : directClrs t f = cl.take 13 := by
  unfold Vol.directClrs
  rw [if_neg hf, ← takeWhile_getD (fun c hc => by have := h.pos c hc; omega) 13]
  congr 1
  exact List.map_congr_left fun i hi => h.slots i (List.mem_range.mp hi)

theorem Stored.loadSec (h : Stored a d t f cl) (hm : Mounted a d) (hlong : 13 < cl.length) :
    ∃ w, devTblLoadSec a d (secAddr t f) = some (cl.length - 13, w) ∧
      ∀ j < cl.length - 13, ((w j).toNat : ℤ) = (cl.drop 13).getD j 0 := by
  have hdrop : (cl.drop 13).length = cl.length - 13 := List.length_drop
  have hcap := h.cap
  have hsec := h.long hlong
  have hpos := hsec.pos
  rw [← hdrop]
  exact (h.words hlong).load hm (by omega) hsec.lt (by omega)

theorem map_word_eq {w : ℕ → UInt32} {l : List ℤ}
    (h : ∀ j < l.length, ((w j).toNat : ℤ) = l.getD j 0) :
    ((List.range l.length).map fun j => ((w j).toNat : ℤ)) = l := by
  refine List.ext_getElem (by simp) fun j hj hj' => ?_
  rw [List.getElem_map, List.getElem_range, h j hj', List.getD_eq_getElem]

/-- **The table has the list that is stored.** -/
theorem Stored.tableClrs {s : St} (h : Stored a s.dev s.fsTable f cl) (hm : Mounted a s.dev)
    (hf : f ≠ 0) : tableClrs a s f = some cl := by
  unfold Vol.tableClrs
  rw [h.slotted.directClrs hf]
  by_cases hlong : 13 < cl.length
  · have hdrop : (cl.drop 13).length = cl.length - 13 := List.length_drop
    have hpos := (h.long hlong).pos
    obtain ⟨w, hload, hw⟩ := h.loadSec hm hlong
    rw [← hdrop] at hload hw
    rw [if_neg (by omega), hload, Option.bind_eq_bind, Option.bind_some]
    exact congrArg some (by rw [map_word_eq hw, List.take_append_drop])
  · rw [if_pos (h.short (by omega)), List.take_of_length_le (by omega)]

end Stored

/-! ### The list in the cache -/

/-- The direct part of the cache. -/
def DirOk (c : ClrsCache) (cl : List ℤ) : Prop :=
  c.s0Cnt = min 13 cl.length ∧ ∀ i < min 13 cl.length, ((c.s0Cl i).toNat : ℤ) = cl.getD i 0

/-- The second-level part of the cache. -/
def IndOk (c : ClrsCache) (cl : List ℤ) : Prop :=
  c.s1Cnt = cl.length - 13 ∧ ∀ j < cl.length - 13, ((c.s1Cl j).toNat : ℤ) = cl.getD (13 + j) 0

/-- **The cache holds the whole list of the file.** -/
structure Loaded (c : ClrsCache) (f : ℤ) (cl : List ℤ) : Prop where
  fid : c.fid = f
  dir : DirOk c cl
  ind : IndOk c cl

/-- If the cache holds anything of the file, then its list. -/
structure CacheOk (c : ClrsCache) (f : ℤ) (cl : List ℤ) : Prop where
  dir : c.fid = f → c.s0Cnt ≠ 0 → DirOk c cl
  ind : c.fid = f → c.s1Cnt ≠ 0 → IndOk c cl

theorem Loaded.cacheOk {c : ClrsCache} {f : ℤ} {cl : List ℤ} (h : Loaded c f cl) : CacheOk c f cl :=
  ⟨fun _ _ => h.dir, fun _ _ => h.ind⟩

theorem CacheOk.of_ne {c : ClrsCache} {f : ℤ} {cl : List ℤ} (h : c.fid ≠ f) : CacheOk c f cl :=
  ⟨fun h' => absurd h' h, fun h' => absurd h' h⟩

/-! ### Loading -/

theorem loadFirLoop_eq {f : ℤ} (hf : f ≠ 0) {clrs : ℕ → UInt16} {cl : List ℤ}
    (hslots : ∀ i < 13, ((clrs i).toNat : ℤ) = cl.getD i 0) (hrange : ∀ c ∈ cl, c ≠ 0) (n : ℕ) :
    ∀ {count : ℕ} (s0 : ℕ → UInt32), count + n = 13 → count ≤ cl.length →
      (∀ i < count, ((s0 i).toNat : ℤ) = cl.getD i 0) →
      (loadFirLoop f clrs n count s0).1 = min 13 cl.length ∧
        ∀ i < min 13 cl.length, (((loadFirLoop f clrs n count s0).2 i).toNat : ℤ) = cl.getD i 0 := by
  induction n with
  | zero =>
    intro count s0 hn hle hs
    unfold loadFirLoop
    exact ⟨by simp only; omega, fun i hi => hs i (by omega)⟩
  | succ n ih =>
    intro count s0 hn hle hs
    unfold loadFirLoop
    have hslot := hslots count (by omega)
    by_cases hend : count = cl.length
    · have hz : clrs count = 0 := by
        rw [hend, List.getD_eq_default _ _ (le_refl _)] at hslot
        exact UInt16.toNat_inj.mp (by rw [hend]; simpa using hslot)
      rw [if_pos ⟨hf, hz⟩]
      exact ⟨by simp only; omega, fun i hi => hs i (by omega)⟩
    · have hlt : count < cl.length := by omega
      have hnz : clrs count ≠ 0 := by
        intro hz
        rw [hz, List.getD_eq_getElem _ _ hlt] at hslot
        exact hrange _ (List.getElem_mem hlt) hslot.symm
      rw [if_neg (fun h => hnz h.2)]
      simp only [if_neg hf]
      refine ih _ (by omega) (by omega) fun i hi => ?_
      by_cases hic : i = count
      · rw [hic, Function.update_self, ← hslot]
        simp
      · rw [Function.update_of_ne hic]
        exact hs i (by omega)

section Cnt
variable {a : Args} {s : St} {f : ℤ} {cl : List ℤ} (hm : Mounted a s.dev)

include hm in
theorem s1Len_lt : s1Len a < 2 ^ 31 := by
  have hlt : volLen a.fsHead < 2 ^ 31 := hm.geo.exact
  have htbl : 0 < a.fsHead.tblLen.toNat := by
    by_contra h0
    have htab := hm.geo.table
    rw [show a.fsHead.tblLen.toNat = 0 by omega, sizeofTable] at htab
    omega
  have hdata := hm.geo.data
  have hmul : 2 * a.fsHead.lblkSz ≤ volLen a.fsHead := Nat.mul_le_mul_right _ (by omega)
  unfold s1Len Args.lblkSz
  omega

theorem Slotted.length_lt {t : FcfsTable} (h : Slotted a t f cl) (hm : Mounted a s.dev) :
    cl.length < 2 ^ 31 := lt_of_le_of_lt h.bound (s1Len_lt hm)

theorem clrsAt_eq {c : ClrsCache} (hl : Loaded c f cl) (hsmall : ∀ x ∈ cl, 0 ≤ x ∧ x < 2 ^ 31)
    {i : ℕ} (hi : i < cl.length) (hi' : i < s1Len a) : clrsAt a c i = cl.getD i 0 := by
  have hmem : cl.getD i 0 ∈ cl := by
    rw [List.getD_eq_getElem _ _ hi]
    exact List.getElem_mem hi
  obtain ⟨h0, h31⟩ := hsmall _ hmem
  unfold clrsAt
  by_cases h13 : i < 13
  · have hs := hl.dir.2 i (by omega)
    rw [if_pos h13, if_pos (by rw [hl.dir.1]; omega), hs, cint_of_lt h0 h31]
  · have hs := hl.ind.2 (i - 13) (by omega)
    rw [show 13 + (i - 13) = i by omega] at hs
    rw [if_neg h13, if_pos hi', if_pos (by rw [hl.ind.1]; omega), hs, cint_of_lt h0 h31]

/-- Behind the list the cache has nothing, once the list is as long as it can get. -/
theorem clrsAt_of_le {c : ClrsCache} {i : ℕ} (h13 : 13 ≤ i) (hi : s1Len a ≤ i) : clrsAt a c i = -1 := by
  unfold clrsAt
  rw [if_neg (by omega), if_neg (by omega)]

theorem Anchored.small {t : FcfsTable} (h : Anchored a t f cl)
    (hclu : a.cluCnt < 2 ^ 31) : ∀ x ∈ cl, 0 ≤ x ∧ x < 2 ^ 31 := by
  intro x hx
  have hr := h.range x hx
  omega

/-- The cache `dev_tbl_clrs_cnt` works on has the direct clusters after its first stage. -/
theorem clrsStage0_eq (hf : f ≠ 0) (hs : Slotted a s.fsTable f cl) {c0 : ClrsCache}
    (hfid : c0.fid = f) (hok : CacheOk c0 f cl) : (clrsStage0 s f c0).fid = f ∧
      DirOk (clrsStage0 s f c0) cl ∧ (clrsStage0 s f c0).s1Cnt = c0.s1Cnt ∧
      (clrsStage0 s f c0).s1Cl = c0.s1Cl := by
  unfold clrsStage0
  split_ifs with h0
  · exact ⟨hfid, loadFirLoop_eq hf hs.slots (fun c hcl => by have := hs.pos c hcl; omega) 13
      s.clrsCache.s0Cl rfl (Nat.zero_le _) (fun i hi => by omega), rfl, rfl⟩
  · exact ⟨hfid, hok.dir hfid h0, rfl, rfl⟩

theorem cnt_loaded {c : ClrsCache} (hl : Loaded c f cl) (hlen : cl.length < 2 ^ 31) :
    cint (c.s0Cnt + c.s1Cnt : ℕ) = cl.length := by
  have hsum : c.s0Cnt + c.s1Cnt = cl.length := by
    have h0 := hl.dir.1
    have h1 := hl.ind.1
    omega
  rw [hsum, cint_of_lt (by omega) (by omega)]

include hm in
/-- **`dev_tbl_clrs_cnt` loads a list whose array is stored.** -/
theorem devTblClrsCnt_slotted (hf : f ≠ 0) (hs : Slotted a s.fsTable f cl)
    (hcap : cl.length ≤ 13 + secCap a)
    (hwords : 13 < cl.length → SecWords a s.dev (secAddr s.fsTable f) (cl.drop 13))
    (hc : CacheOk s.clrsCache f cl) :
    ∃ c, devTblClrsCnt a s f = some ((cl.length : ℤ), { s with clrsCache := c }) ∧ Loaded c f cl := by
  have hlen := hs.length_lt hm
  -- the cache of the right file, perhaps with parts missing
  obtain ⟨c0, hc0, hfid0, hok0⟩ : ∃ c, c = (if s.clrsCache.fid ≠ f then tblClrsReinit s.clrsCache f
      else s.clrsCache) ∧ c.fid = f ∧ CacheOk c f cl := by
    refine ⟨_, rfl, ?_, ?_⟩
    · split_ifs with hne
      · rfl
      · exact not_not.mp hne
    · split_ifs with hne
      · exact ⟨fun _ h => absurd rfl h, fun _ h => absurd rfl h⟩
      · exact hc
  obtain ⟨hfid1, hdir1, hcnt1, hs1⟩ := clrsStage0_eq hf hs hfid0 hok0
  have hok1 : (clrsStage0 s f c0).s1Cnt ≠ 0 → IndOk (clrsStage0 s f c0) cl := by
    intro h1
    rw [hcnt1] at h1
    have hind := hok0.ind hfid0 h1
    unfold IndOk
    rw [hcnt1, hs1]
    exact hind
  obtain ⟨c2, hc2, hl⟩ : ∃ c, clrsStage1 a s.dev ((s.fsTable.entrs f).clrs 13) (clrsStage0 s f c0) =
      some c ∧ Loaded c f cl := by
    unfold clrsStage1
    by_cases hlong : 13 < cl.length
    · have hsec := hs.long hlong
      by_cases h1 : (clrsStage0 s f c0).s1Cnt = 0
      · have hdrop : (cl.drop 13).length = cl.length - 13 := List.length_drop
        obtain ⟨w, hload, hw⟩ := (hwords hlong).load hm (show 0 ≤ secAddr s.fsTable f by
          have := hsec.pos; omega) hsec.lt (by omega)
        rw [if_pos ⟨hs.word_ne hlong, h1⟩]
        refine ⟨{ clrsStage0 s f c0 with s1Cnt := (cl.drop 13).length, s1Cl := w },
          Option.bind_eq_some_iff.mpr ⟨_, hload, rfl⟩, hfid1, hdir1, hdrop, fun j hj => ?_⟩
        rw [← getD_drop]
        exact hw j (by omega)
      · rw [if_neg (fun h => h1 h.2)]
        exact ⟨_, rfl, hfid1, hdir1, hok1 h1⟩
    · rw [if_neg (fun h => h.1 (hs.word_eq (by omega)))]
      refine ⟨_, rfl, hfid1, hdir1, ?_⟩
      by_cases h1 : (clrsStage0 s f c0).s1Cnt = 0
      · exact ⟨by omega, fun j hj => by omega⟩
      · exact hok1 h1
  refine ⟨c2, ?_, hl⟩
  unfold devTblClrsCnt
  rw [← hc0]
  dsimp only
  refine Option.bind_eq_some_iff.mpr ⟨_, hc2, ?_⟩
  rw [cnt_loaded hl hlen]

include hm in
/-- **`dev_tbl_clrs_cnt` loads the stored list.** -/
theorem devTblClrsCnt_eq (hf : f ≠ 0) (hst : Stored a s.dev s.fsTable f cl)
    (hc : CacheOk s.clrsCache f cl) :
    ∃ c, devTblClrsCnt a s f = some ((cl.length : ℤ), { s with clrsCache := c }) ∧ Loaded c f cl :=
  devTblClrsCnt_slotted hm hf hst.slotted hst.cap hst.words hc

/-- The cache has `n` clusters of the file, direct ones among them, and others if there are any. -/
structure HasClrs (s : St) (f : ℤ) (n : ℕ) : Prop where
  fid : s.clrsCache.fid = f
  dir : s.clrsCache.s0Cnt ≠ 0
  ind : (s.fsTable.entrs f).clrs 13 ≠ 0 → s.clrsCache.s1Cnt ≠ 0
  sum : s.clrsCache.s0Cnt + s.clrsCache.s1Cnt = n

theorem HasClrs.load {n : ℕ} (h : HasClrs s f n) (hn : n < 2 ^ 31) :
    devTblClrsCnt a s f = some ((n : ℤ), s) := by
  have hstage0 : clrsStage0 s f s.clrsCache = s.clrsCache := if_neg h.dir
  have hstage1 : clrsStage1 a s.dev ((s.fsTable.entrs f).clrs 13) s.clrsCache = some s.clrsCache :=
    if_neg fun hz => h.ind hz.1 hz.2
  unfold devTblClrsCnt
  simp only [h.fid, ne_eq, not_true_eq_false, if_false, hstage0, hstage1, Option.bind_eq_bind,
    Option.bind_some]
  rw [h.sum, cint_of_lt (by omega) (by omega)]

theorem devTblClrsCnt_of_loaded (hs : Slotted a s.fsTable f cl)
    (hl : Loaded s.clrsCache f cl) (hne : cl ≠ []) (hlen : cl.length < 2 ^ 31) :
    devTblClrsCnt a s f = some ((cl.length : ℤ), s) := by
  have hpos : 0 < cl.length := List.length_pos_iff.mpr hne
  have h0 := hl.dir.1
  have h1 := hl.ind.1
  refine HasClrs.load ⟨hl.fid, by omega, fun hz => ?_, by omega⟩ hlen
  have hlong : 13 < cl.length := by
    by_contra hshort
    exact hz (hs.word_eq (by omega))
  omega

theorem devTblClrsGet_of_fid (hfid : s.clrsCache.fid = f) (i : ℕ) :
    devTblClrsGet a s f i = some (clrsAt a s.clrsCache i, s) := by
  unfold devTblClrsGet clrsLoad
  rw [if_neg (not_not.mpr hfid), Option.bind_eq_bind, Option.bind_some]

/-- **`dev_tbl_clrs_get` reads a loaded list.** -/
theorem devTblClrsGet_eq (hl : Loaded s.clrsCache f cl) (hsmall : ∀ x ∈ cl, 0 ≤ x ∧ x < 2 ^ 31)
    {i : ℕ} (hi : i < cl.length) (hi' : i < s1Len a) :
    devTblClrsGet a s f i = some (cl.getD i 0, s) := by
  rw [devTblClrsGet_of_fid hl.fid, clrsAt_eq hl hsmall hi hi']

theorem devTblClrsGet_of_le {i : ℕ} (hfid : s.clrsCache.fid = f) (h13 : 13 ≤ i) (hi : s1Len a ≤ i) :
    devTblClrsGet a s f i = some (-1, s) := by
  rw [devTblClrsGet_of_fid hfid, clrsAt_of_le h13 hi]

end Cnt

end Fcfs.Vol
