import Fcfs.Vol.ReadWrite

/-! # What is written is read back

On a consistent volume whose cluster list for the file is in order (`ListOk`) and which has the
space, a write returns its size, a read of the same place then returns the bytes, the size is the
larger of the old one and the end of the write, and the old bytes around it read as before
(`readsBack`). -/

namespace Fcfs.Vol

open Lib.Bytes

/-- **The cluster list of a file is in order**: what its table entry and, behind the thirteenth
cluster, the array in its address cluster hold is a list of clusters, and the file has no block in
the address cluster. -/
structure ListOk (a : Args) (s : St) (f : ℤ) (cl : List ℤ) : Prop where
  stored : Stored a s.dev s.fsTable f cl
  apart : SecApart a s f

section Lookup
variable {a : Args} {s : St}

/-- What the lookup returns is the list of the file, cached or rebuilt. -/
theorem seqOf_of_lookup {f : ℤ} {l : List BlkInfo} {t : St} (h : devGetFileSeq a s f = some (l, t)) :
    SeqOf a s f l := by
  cases hseq : s.mapSeq f with
  | some l' =>
    rw [devGetFileSeq_cached hseq] at h
    exact Or.inl (hseq.trans (congrArg some (Prod.mk.inj (Option.some.inj h)).1))
  | none => exact Or.inr ⟨t, by rw [cacheSeqRm_of_none hseq]; exact h⟩

theorem exists_lookup {f : ℤ} (hreb : ∃ l, Rebuilt a s f l) : ∃ l t, devGetFileSeq a s f = some (l, t) := by
  cases hseq : s.mapSeq f with
  | some l => exact ⟨l, s, devGetFileSeq_cached hseq⟩
  | none =>
    obtain ⟨l, t, ht⟩ := hreb
    rw [cacheSeqRm_of_none hseq] at ht
    exact ⟨l, t, ht⟩

theorem Consistent.exists_lookup (hc : Consistent a s) {f : ℤ} (hf : f = 0 ∨ Live s.fsTable f) :
    ∃ l t, devGetFileSeq a s f = some (l, t) := Vol.exists_lookup (hc.rebuilt f hf)

/-- **After the lookup the file can grow.** -/
theorem Consistent.growable (hm : Mounted a s.dev) (hc : Consistent a s)
    {f : ℤ} (hlive : Live s.fsTable f) (hf : f ≠ 0) {cl : List ℤ} (hlist : ListOk a s f cl)
    {l : List BlkInfo} {t : St} (hseq : devGetFileSeq a s f = some (l, t)) :
    ∃ c, t = cacheSeqAdd { s with clrsCache := c } f l ∧ Growable a t f l cl := by
  have hok := hc.cacheOk hm hf hlive hlist.stored
  have hfile := hc.files f hlive hf l (seqOf_of_lookup hseq)
  obtain ⟨c, rfl, hcase⟩ := devGetFileSeq_frame hseq
  have hcache : CacheOk c f cl := by
    rcases hcase with ⟨-, rfl⟩ | ⟨-, n, hcnt⟩
    · exact hok
    · obtain ⟨c', hcnt', hl⟩ := devTblClrsCnt_eq hm hf hlist.stored hok
      rw [hcnt] at hcnt'
      have heq := congrArg St.clrsCache (Prod.mk.inj (Option.some.inj hcnt')).2
      exact (show c = c' from heq) ▸ hl.cacheOk
  refine ⟨c, rfl, hlist.stored, ?_, hcache, hlist.apart, hfile⟩
  -- a file without clusters would have no blocks
  rintro rfl
  obtain ⟨l', t', ht'⟩ := hc.rebuilt f (Or.inr hlive)
  obtain ⟨c', -, hnone⟩ := devGetFileSeq_rebuild (s := cacheSeqRm s f) hm hf hlist.stored hok
    (mapSeq_cacheSeqRm s f)
  rw [ht', if_pos (by rfl)] at hnone
  cases hnone

end Lookup

/-- There is space for what a write of `size` bytes at `offset` needs. -/
def WriteSpace (a : Args) (s : St) (f : ℤ) (cl : List ℤ) (size offset : ℕ) : Prop :=
  ∀ l t, devGetFileSeq a s f = some (l, t) → (l.length : ℤ) < writeNeed a size offset →
    Space a s.dev cl (writeNeed a size offset - l.length).toNat

/-- **What is written is read back**, the size is raised to the end of the write, and what the file
held around it reads as before. -/
def ReadsBack (a : Args) (s : St) (path : Path) (data : Buf) (size offset : ℕ) (f : ℤ) : Prop :=
  ∃ s', opsWrite a s path data size offset f = some ((size : ℤ), s') ∧
    (∀ buf, ∃ t, opsRead a s' buf size offset f = some ((size : ℤ), memcpy buf 0 data size, t)) ∧
    ∃ (old : ℕ) (t t' : St), devFileSize a s f = some ((old : ℤ), t) ∧
      devFileSize a s' f = some (((max old (offset + size) : ℕ) : ℤ), t') ∧
      ∀ buf n off, off + n ≤ old → off + n ≤ offset ∨ offset + size ≤ off →
        ∃ b u u', opsRead a s buf n off f = some ((n : ℤ), b, u) ∧
          opsRead a s' buf n off f = some ((n : ℤ), b, u')

/-- **Read after write.** -/
theorem readsBack {a : Args} {s : St} (hm : Mounted a s.dev) (hsm : a.cluCnt ≤ 65535)
    (hc : Consistent a s) {f : ℤ} (hlive : Live s.fsTable f) (hf : f ≠ 0) {cl : List ℤ}
    (hlist : ListOk a s f cl) (path : Path) (data : Buf) {size offset : ℕ}
    (hlen : offset + 4 + size < 2 ^ 31) (hspace : WriteSpace a s f cl size offset) :
    ReadsBack a s path data size offset f := by
  have hL : 1024 ≤ a.lblkSz := hm.geo.le_lblkSz
  have hlive0 := hlive.nonneg
  obtain ⟨l, t, hseq⟩ := hc.exists_lookup (Or.inr hlive)
  obtain ⟨c, ht, hg⟩ := hc.growable hm hlive hf hlist hseq
  have hdev : t.dev = s.dev := by rw [ht]; rfl
  have hmt : Mounted a t.dev := by rw [hdev]; exact hm
  have hagt : Agree a t.dev t.fsBitmap := by rw [ht]; exact hc.agree
  have hsz : 4 + fileSz a t.dev l ≤ l.length * a.lblkSz := by
    rw [hdev]
    exact hc.sizes f (Or.inr hlive) l (seqOf_of_lookup hseq)
  have h31 := hg.list.bytes_lt hmt
  obtain ⟨l', u, s', hop, hgr, hw, hle, hcont, -⟩ := opsWrite_eq hsm (by omega) hlive.lt hmt hagt hseq
    hg path data hlen (by omega) (by rw [hdev]; exact hspace l t hseq)
  have hlist' : FileSeq a (tab a s'.dev) f l' := by rw [hw.tabs]; exact hgr.list
  have hseq' : devGetFileSeq a s' f = some (l', s') :=
    devGetFileSeq_cached (by rw [hw.mem]; exact hgr.seq)
  have h31' := hlist'.bytes_lt hw.mounted
  have hfit : offset + 4 + size ≤ l'.length * a.lblkSz := (pages_le_iff (by omega)).mp hle
  have hgrow : l.length * a.lblkSz ≤ l'.length * a.lblkSz :=
    Nat.mul_le_mul_right _ hgr.pre.length_le
  have hsz' : fileSz a s'.dev l' = max (fileSz a t.dev l) (offset + size) := by
    have hbytes : ∀ i < 4, content a s'.dev l' i =
        leByte (max (fileSz a t.dev l) (offset + size)) i := fun i hi => by
      rw [hcont, memcpy_in (by omega) (by omega), Nat.sub_zero]
    refine (leNat_congr hbytes).trans ((leNat_leByte 4 _).trans (Nat.mod_eq_of_lt ?_))
    omega
  have hread' := fun (buf : Buf) {n off : ℕ} (hin : off + n ≤ fileSz a s'.dev l') =>
    opsRead_eq hlist'.seqOk hlist'.ne hw.mounted hseq' (by rw [hsz']; omega) h31' buf hin
  refine ⟨s', hop, fun buf => ⟨s', ?_⟩, fileSz a t.dev l, t, s', ?_, ?_, fun buf n off hold hout => ?_⟩
  · rw [hread' buf (by rw [hsz']; omega)]
    refine congrArg (fun b => some ((size : ℤ), b, s')) (funext fun i => ?_)
    by_cases hi : i < size
    · rw [memcpy_in (by omega) (by omega), memcpy_in (by omega) (by omega), shift_apply, hcont,
        memcpy_out (by omega), memcpy_in (by omega) (by omega), Nat.add_sub_cancel_left]
    · rw [memcpy_out (by omega), memcpy_out (by omega)]
  · rw [devFileSize_eq hg.list.seqOk hg.list.ne hmt hseq, cint_of_lt (by omega) (by omega)]
  · rw [devFileSize_eq hlist'.seqOk hlist'.ne hw.mounted hseq', hsz',
      cint_of_lt (by omega) (by omega)]
  · refine ⟨_, t, s', opsRead_eq hg.list.seqOk hg.list.ne hmt hseq hsz h31 buf hold, ?_⟩
    rw [hread' buf (by rw [hsz']; omega)]
    refine congrArg (fun b => some ((n : ℤ), b, s')) (funext fun i => ?_)
    by_cases hi : i < n
    · rw [memcpy_in (by omega) (by omega), memcpy_in (by omega) (by omega), shift_apply, shift_apply,
        hcont, memcpy_out (by omega), memcpy_out (by omega)]
      exact content_prefix hg.list.seqOk hgr.list.seqOk hgr.pre hgr.content (by omega)
    · rw [memcpy_out (by omega), memcpy_out (by omega)]

/-! ### Two files in one cluster -/

/-- Block 1 of cluster 1 belongs to file 1, block 2 to file 2. -/
def pairTab (c : ℕ) (i : Fin 7) : BlkEnt :=
  if c = 0 then ⟨0, UInt32.ofNat i⟩
  else if c = 1 ∧ i.val < 2 then ⟨UInt32.ofNat (i.val + 1), 0⟩
  else ⟨0, 0⟩

/-- Both files list cluster 1. -/
def pairEntry (f : ℤ) : TableEntry :=
  if f = 1 ∨ f = 2 then ⟨1, fun i => if i = 0 then 1 else 0⟩ else TableEntry.zero

/-- A volume with two files of one block each, with the given blocks. -/
def pairSt (D : ℕ → ℕ → Buf) : St := sevenSt pairTab D 0 (rootAnd pairEntry)

section Pair
variable (D : ℕ → ℕ → Buf)

theorem live_pairSt {f : ℤ} (hf : f ≠ 0) : Live (pairSt D).fsTable f ↔ f = 1 ∨ f = 2 := by
  constructor
  · intro h
    by_contra hne
    refine h.lnk ?_
    show (rootAnd pairEntry f).lnkCnt = 0
    rw [rootAnd, if_neg hf, pairEntry, if_neg hne]
    rfl
  · have hlnk : ∀ f : ℤ, f = 1 ∨ f = 2 → (rootAnd pairEntry f).lnkCnt ≠ 0 := by
      rintro f (rfl | rfl) <;> decide
    intro hor
    exact ⟨by omega, by unfold tableLen; omega, hlnk f hor⟩

theorem stored_pairSt {f : ℤ} (hf : f = 1 ∨ f = 2) :
    Stored sevenArgs (pairSt D).dev (pairSt D).fsTable f [1] := by
  have hent : (pairSt D).fsTable.entrs f = rootAnd pairEntry 1 := by
    rcases hf with rfl | rfl <;> rfl
  refine ⟨⟨fun i hi => ?_, by rw [cluCnt_sevenArgs]; decide, ?_, fun _ => ?_,
    fun h => absurd h (by decide)⟩, Nat.le_add_right_of_le (by decide), fun h => absurd h (by decide)⟩
  · rw [hent]
    have hslots : ∀ i < 13, (((rootAnd pairEntry 1).clrs i).toNat : ℤ) = [(1 : ℤ)].getD i 0 := by
      decide
    exact hslots i hi
  · unfold s1Len
    rw [lblkSz_sevenArgs]
    decide
  · unfold secAddr
    rw [hent]
    decide

theorem file_pairSt {f : ℤ} (hf : f = 1 ∨ f = 2) :
    ∃ t, devGetFileSeq sevenArgs (pairSt D) f = some (sortNodes (sevenNodes pairTab f [1]), t) ∧
      FileSeq sevenArgs (tab sevenArgs (pairSt D).dev) f (sortNodes (sevenNodes pairTab f [1])) := by
  have hst := stored_pairSt D hf
  rcases hf with rfl | rfl
  · obtain ⟨t, hop⟩ := lookup_sevenSt (T := pairTab) (by decide) hst (by decide)
    exact ⟨t, hop, fileSeq_sevenSt (sortNodes_perm _) hst.range (by decide) (by decide) (by decide)
      (by decide)⟩
  · obtain ⟨t, hop⟩ := lookup_sevenSt (T := pairTab) (by decide) hst (by decide)
    exact ⟨t, hop, fileSeq_sevenSt (sortNodes_perm _) hst.range (by decide) (by decide) (by decide)
      (by decide)⟩

theorem node_pairSt {f : ℤ} (hf : f = 1 ∨ f = 2) :
    (⟨1, f.toNat, 0⟩ : BlkInfo) ∈ sortNodes (sevenNodes pairTab f [1]) := by
  rcases hf with rfl | rfl <;> exact (sortNodes_perm _).mem_iff.mpr (by decide)

theorem consistent_pairSt (h0 : 4 + leNat 4 (D 0 1) ≤ 7168) (h1 : 4 + leNat 4 (D 1 1) ≤ 1024)
    (h2 : 4 + leNat 4 (D 1 2) ≤ 1024) : Consistent sevenArgs (pairSt D) := by
  have hbit : ∀ n < 7, (full (fun k => if k = 0 then 0 else 0) (n : ℕ) = true ↔
      ∀ i, (pairTab n i).fid ≠ 0) := by decide
  refine consistent_sevenSt ⟨by decide, by decide⟩ (fun i => rfl) hbit h0 fun f hf hf0 => ?_
  have hor := (live_pairSt D hf0).mp hf
  obtain ⟨t, hop, hfile⟩ := file_pairSt D hor
  refine ⟨_, t, hop, hfile, _, node_pairSt hor, rfl, ?_⟩
  rw [(sortNodes_perm _).length_eq]
  rcases hor with rfl | rfl
  · exact h1
  · exact h2

end Pair

/-- The volume with two empty files. -/
def sevenPair : St := sevenSt pairTab (fun _ _ _ => 0) 0 (rootAnd pairEntry)

theorem live_sevenPair {f : ℤ} (hf : f ≠ 0) : Live sevenPair.fsTable f ↔ f = 1 ∨ f = 2 := live_pairSt _ hf

theorem stored_sevenPair {f : ℤ} (hf : f = 1 ∨ f = 2) :
    Stored sevenArgs sevenPair.dev sevenPair.fsTable f [1] := stored_pairSt _ hf

theorem file_sevenPair {f : ℤ} (hf : f = 1 ∨ f = 2) :
    ∃ t, devGetFileSeq sevenArgs sevenPair f = some (sortNodes (sevenNodes pairTab f [1]), t) ∧
      FileSeq sevenArgs (tab sevenArgs sevenPair.dev) f (sortNodes (sevenNodes pairTab f [1])) :=
  file_pairSt _ hf

theorem consistent_sevenPair : Consistent sevenArgs sevenPair :=
  consistent_pairSt _ (by decide) (by decide) (by decide)

theorem space_pairSt (D : ℕ → ℕ → Buf) : Space sevenArgs (pairSt D).dev [1] 1 := by
  refine ⟨?_, fun _ hlong => ?_⟩
  · rw [pairSt, freeBlks_sevenSt]
    decide
  · have hle := length_foldl_noteClr_le sevenArgs
      ((nextBlks sevenArgs (pairSt D).dev 1).map BlkInfo.cid) [1]
    have hone : (nextBlks sevenArgs (pairSt D).dev 1).length ≤ 1 := by
      unfold nextBlks
      rw [List.length_map]
      exact List.length_take_le _ _
    rw [List.length_map, List.length_singleton] at hle
    have hlong' : 13 < ((nextBlks sevenArgs (pairSt D).dev 1).map BlkInfo.cid |>.foldl
      (noteClr sevenArgs) [1]).length := hlong
    omega

theorem writeSpace_sevenPair : WriteSpace sevenArgs sevenPair 1 [1] 4 1020 := by
  intro l t hop _
  obtain ⟨t', hop', -⟩ := file_sevenPair (Or.inl rfl)
  obtain ⟨rfl, -⟩ := Prod.mk.inj (Option.some.inj (hop'.symm.trans hop))
  have hcount : (writeNeed sevenArgs 4 1020 - (sortNodes (sevenNodes pairTab 1 [1])).length).toNat = 1 := by
    rw [(sortNodes_perm _).length_eq]
    decide
  rw [hcount]
  exact space_pairSt _

/-- Four bytes are written across the end of the block of file 1 and read back. -/
theorem readsBack_sevenPair : ReadsBack sevenArgs sevenPair [] (fun i => UInt8.ofNat (i + 1)) 4 1020 1 := by
  have hst := stored_sevenPair (f := 1) (Or.inl rfl)
  exact readsBack (mounted_sevenSt _ _ _ _) (by rw [cluCnt_sevenArgs]; decide) consistent_sevenPair
    ((live_sevenPair (by decide)).mpr (Or.inl rfl)) (by decide) ⟨hst, Or.inl (by decide)⟩ [] _ (by decide)
    writeSpace_sevenPair

/-! ### A cluster list whose length does not fit -/

/-- **A walk that ends behind the direct slots**: the array is empty, or its first word is 0. -/
theorem lookup_of_array {a : Args} {s : St} {f : ℤ} {cl : List ℤ} {n m : ℕ} {w : ℕ → UInt32}
    (hm : Mounted a s.dev) (hf : f ≠ 0) (hfid : s.clrsCache.fid ≠ f) (hseq : s.mapSeq f = none)
    (hlen : cl.length = 13) (hslots : ∀ i < 13, (((s.fsTable.entrs f).clrs i).toNat : ℤ) = cl.getD i 0)
    (hrange : ∀ c ∈ cl, 1 ≤ c ∧ c < a.cluCnt) (haddr : (s.fsTable.entrs f).clrs 13 ≠ 0)
    (hload : devTblLoadSec a s.dev (secAddr s.fsTable f) = some (n, w))
    (hsz : toSizeT (cint (13 + n : ℕ)) = 13 + m) (hend : m ≠ 0 → n ≠ 0 ∧ w 0 = 0)
    (hne : ownNodes (tab a s.dev) f cl ≠ []) :
    ∃ t, devGetFileSeq a s f = some (sortNodes (ownNodes (tab a s.dev) f cl), t) := by
  have hclu := hm.cluCnt_lt
  have hL : 1024 ≤ a.lblkSz := hm.geo.le_lblkSz
  obtain ⟨hcnt, hs0⟩ := loadFirLoop_eq hf hslots (fun c hc => by have := hrange c hc; omega) 13
    s.clrsCache.s0Cl rfl (Nat.zero_le _) (fun i hi => absurd hi (Nat.not_lt_zero i))
  rw [hlen] at hcnt hs0
  -- the cache after the load
  obtain ⟨c, hc⟩ : ∃ c : ClrsCache, c = ⟨f, (devTblLoadFir s f).2, w, 13, n⟩ := ⟨_, rfl⟩
  have h0 : clrsStage0 s f (tblClrsReinit s.clrsCache f) =
      ⟨f, (devTblLoadFir s f).2, s.clrsCache.s1Cl, 13, 0⟩ := by
    unfold clrsStage0
    refine (if_pos rfl).trans ?_
    exact congrArg (fun k => ClrsCache.mk f (devTblLoadFir s f).2 s.clrsCache.s1Cl k 0) hcnt
  have h1 : clrsStage1 a s.dev ((s.fsTable.entrs f).clrs 13)
      ⟨f, (devTblLoadFir s f).2, s.clrsCache.s1Cl, 13, 0⟩ = some c := by
    unfold clrsStage1
    rw [if_pos ⟨haddr, rfl⟩, hc]
    exact Option.bind_eq_some_iff.mpr ⟨_, hload, rfl⟩
  have hop : devTblClrsCnt a s f = some (cint (13 + n : ℕ), { s with clrsCache := c }) := by
    unfold devTblClrsCnt
    rw [if_pos hfid]
    dsimp only
    rw [h0]
    refine Option.bind_eq_some_iff.mpr ⟨_, h1, ?_⟩
    rw [hc]
  have hat : ∀ i < cl.length, clrsAt a c i = cl.getD i 0 := by
    intro i hi
    have hi13 : i < 13 := hlen ▸ hi
    have hmem : cl.getD i 0 ∈ cl := by
      rw [List.getD_eq_getElem _ _ hi]
      exact List.getElem_mem hi
    have hr := hrange _ hmem
    have hslot : ((c.s0Cl i).toNat : ℤ) = cl.getD i 0 := by
      rw [hc]
      exact hs0 i hi13
    unfold clrsAt
    rw [if_pos hi13, if_pos (by rw [hc]; exact hi13), hslot, cint_of_lt (by omega) (by omega)]
  have hcol : seqCollect a f (13 + m) 0 [] { s with clrsCache := c } =
      some (ownNodes (tab a s.dev) f cl, { s with clrsCache := c }) := by
    have hget := seqCollect_get (s := { s with clrsCache := c }) hm hf (by rw [hc]) hat hrange m 13
      (i := 0) [] (by rw [hlen])
    rw [hget, List.nil_append, List.drop_zero, hlen]
    cases m with
    | zero => rfl
    | succ m =>
      -- the first word of the array ends the loop
      obtain ⟨hn, hw0⟩ := hend (Nat.succ_ne_zero m)
      have hstop : clrsAt a c 13 = 0 := by
        unfold clrsAt s1Len
        rw [if_neg (by decide), if_pos (by omega), if_pos (by rw [hc]; exact hn), hc]
        show cint (w 0).toNat = 0
        rw [hw0]
        decide
      unfold seqCollect
      refine Option.bind_eq_some_iff.mpr ⟨_, devTblClrsGet_of_fid (by rw [hc]) _, ?_⟩
      exact if_pos ⟨hf, hstop⟩
  refine ⟨cacheSeqAdd { s with clrsCache := c } f (sortNodes (ownNodes (tab a s.dev) f cl)), ?_⟩
  unfold devGetFileSeq
  rw [hseq]
  refine Option.bind_eq_some_iff.mpr ⟨_, hop, ?_⟩
  dsimp only
  rw [hsz]
  refine Option.bind_eq_some_iff.mpr ⟨_, hcol, ?_⟩
  dsimp only
  rw [if_neg hne]
  exact Option.bind_eq_some_iff.mpr ⟨_, seqSort_eq _, rfl⟩

/-- Cluster 1 has the blocks of file 1, cluster 2 is claimed. -/
def wrappedTab (c : ℕ) (i : Fin 7) : BlkEnt :=
  if c = 0 then ⟨0, UInt32.ofNat i⟩
  else if c = 1 then ⟨1, UInt32.ofNat i⟩
  else if c = 2 then ⟨u32 (-1), UInt32.ofNat i⟩
  else ⟨0, 0⟩

/-- The array in cluster 2: a count of `2^31` and words that are all 0. -/
def wrappedData (c b : ℕ) : Buf := fun i => if c = 2 ∧ b = 1 ∧ i = 3 then 128 else 0

/-- File 1 lists cluster 1, then cluster 2 twelve times, and has its array in cluster 2. -/
def wrappedEntry (f : ℤ) : TableEntry :=
  if f = 1 then ⟨1, fun i => if i = 0 then 1 else if i ≤ 13 then 2 else 0⟩ else TableEntry.zero

/-- A consistent volume on which the stored number of clusters is negative as an `int`. -/
def sevenWrapped : St := sevenSt wrappedTab wrappedData 96 (rootAnd wrappedEntry)

/-- The clusters in the direct slots of file 1. -/
def wrappedClrs : List ℤ := 1 :: List.replicate 12 2

theorem live_sevenWrapped {f : ℤ} (hf : f ≠ 0) : Live sevenWrapped.fsTable f ↔ f = 1 := by
  constructor
  · intro h
    by_contra hne
    refine h.lnk ?_
    show (rootAnd wrappedEntry f).lnkCnt = 0
    rw [rootAnd, if_neg hf, wrappedEntry, if_neg hne]
    rfl
  · rintro rfl
    exact ⟨by decide, by decide, by decide⟩

theorem wrappedClrs_range : ∀ c ∈ wrappedClrs, 1 ≤ c ∧ c < sevenArgs.cluCnt := by
  rw [cluCnt_sevenArgs]
  decide

theorem loadSec_sevenWrapped : ∃ w, devTblLoadSec sevenArgs sevenWrapped.dev 2 = some (2 ^ 31, w) ∧
    w 0 = 0 := by
  obtain ⟨w, hop, hw⟩ := devTblLoadSec_eq (mounted_sevenSt wrappedTab wrappedData 96
    (rootAnd wrappedEntry)) (show (0 : ℤ) ≤ 2 by decide) (by rw [cluCnt_sevenArgs]; decide)
  have hbytes : ∀ k < 1024, secBytes sevenArgs sevenWrapped.dev 2 k = wrappedData 2 1 k := by
    intro k hk
    unfold secBytes
    rw [lblkSz_sevenArgs, Nat.div_eq_of_lt hk, Nat.mod_eq_of_lt hk, sevenWrapped,
      data_sevenSt _ _ _ _ (by decide) (by decide) (by decide) (by decide)]
    exact cut_of_lt _ hk
  have hcnt : leNat 4 (secBytes sevenArgs sevenWrapped.dev 2) = 2 ^ 31 :=
    (leNat_congr fun i hi => hbytes i (by omega)).trans (by decide)
  have hword : get32 (secBytes sevenArgs sevenWrapped.dev 2) 4 = get32 (wrappedData 2 1) 4 :=
    get32_congr fun i hi => hbytes (4 + i) (by omega)
  refine ⟨w, ?_, ?_⟩
  · rw [← hcnt]
    exact hop
  · refine (hw 0 ?_).trans (hword.trans (by decide))
    unfold secCap
    rw [lblkSz_sevenArgs]
    decide

theorem lookup_sevenWrapped : ∃ t, devGetFileSeq sevenArgs sevenWrapped 1 =
    some (sortNodes (sevenNodes wrappedTab 1 wrappedClrs), t) := by
  obtain ⟨w, hload, hw0⟩ := loadSec_sevenWrapped
  obtain ⟨m, hsz⟩ : ∃ m, toSizeT (cint (13 + 2 ^ 31 : ℕ)) = 13 + m := ⟨2 ^ 64 - 2 ^ 31, by decide⟩
  obtain ⟨t, hop⟩ := lookup_of_array (s := sevenWrapped) (mounted_sevenSt _ _ _ _)
    (show (1 : ℤ) ≠ 0 by decide) (by decide) rfl (show wrappedClrs.length = 13 from rfl)
    (show ∀ i < 13, (((rootAnd wrappedEntry 1).clrs i).toNat : ℤ) = wrappedClrs.getD i 0 by decide)
    wrappedClrs_range (by decide) hload hsz (fun _ => ⟨by decide, hw0⟩)
    (by rw [sevenWrapped, ownNodes_sevenSt wrappedClrs_range]; decide)
  rw [sevenWrapped, ownNodes_sevenSt wrappedClrs_range] at hop
  exact ⟨t, hop⟩

theorem file_sevenWrapped : FileSeq sevenArgs (tab sevenArgs sevenWrapped.dev) 1
    (sortNodes (sevenNodes wrappedTab 1 wrappedClrs)) :=
  fileSeq_sevenSt (sortNodes_perm _) wrappedClrs_range (by decide) (by decide) (by decide) (by decide)

theorem consistent_sevenWrapped : Consistent sevenArgs sevenWrapped := by
  refine consistent_sevenSt ⟨by decide, by decide⟩ (fun i => rfl) (by decide) (by decide)
    fun f hf hf0 => ?_
  obtain rfl := (live_sevenWrapped hf0).mp hf
  obtain ⟨t, hop⟩ := lookup_sevenWrapped
  refine ⟨_, t, hop, file_sevenWrapped, ⟨1, 1, 0⟩, (sortNodes_perm _).mem_iff.mpr (by decide), rfl, ?_⟩
  rw [(sortNodes_perm _).length_eq]
  decide

theorem storedCnt_sevenWrapped : storedCnt sevenArgs sevenWrapped 1 = some (cint (13 + 2 ^ 31 : ℕ)) := by
  obtain ⟨w, hload, -⟩ := loadSec_sevenWrapped
  have hsec : secCnt sevenArgs sevenWrapped 1 = some (2 ^ 31) := by
    unfold secCnt
    refine (if_neg (by decide)).trans ?_
    exact Option.map_eq_some_iff.mpr ⟨_, hload, rfl⟩
  have hdir : dirCnt sevenWrapped.fsTable 1 = 13 := by decide
  unfold storedCnt
  rw [hsec, hdir, Option.map_some]

/-- **A write that the volume has the space for fails**: the list of file 1 can be read, but the
number of its clusters cannot. -/
theorem not_readsBack_sevenWrapped : Mounted sevenArgs sevenWrapped.dev ∧
    Consistent sevenArgs sevenWrapped ∧ Live sevenWrapped.fsTable 1 ∧
    (∃ l t, devGetFileSeq sevenArgs sevenWrapped 1 = some (l, t) ∧
      ¬ OutOfSpace sevenArgs sevenWrapped 1 l (writeNeed sevenArgs 1 7168)) ∧
    ¬ ReadsBack sevenArgs sevenWrapped [] (fun _ => 7) 1 7168 1 := by
  have hm := mounted_sevenSt wrappedTab wrappedData 96 (rootAnd wrappedEntry)
  have hc := consistent_sevenWrapped
  have hlive := (live_sevenWrapped (f := 1) (by decide)).mpr rfl
  obtain ⟨t, hop⟩ := lookup_sevenWrapped
  have hfree : (freeBlks sevenArgs (tab sevenArgs sevenWrapped.dev)).length = 28 := by
    rw [sevenWrapped, freeBlks_sevenSt]
    decide
  have hneed : writeNeed sevenArgs 1 7168 - (sortNodes (sevenNodes wrappedTab 1 wrappedClrs)).length = 1 := by
    rw [(sortNodes_perm _).length_eq]
    decide
  refine ⟨hm, hc, hlive, ⟨_, t, hop, ?_⟩, ?_⟩
  · rintro (h | ⟨-, hsec, -⟩)
    · rw [hneed, hfree] at h
      exact absurd h (by decide)
    · exact absurd hsec (by decide)
  · rintro ⟨s', hw, -⟩
    have hblks := devFreeBlocks_eq hm hc.agree (le_refl 1)
      (by show 1 ≤ (freeBlks sevenArgs (tab sevenArgs sevenWrapped.dev)).length; rw [hfree]; decide)
    obtain ⟨u, hu, -⟩ : ∃ u, opsWrite sevenArgs sevenWrapped [] (fun _ => 7) 1 7168 1 = some (-1, u) ∧ _ :=
      fails_of_storedCnt_neg (hc.cntAgrees (Or.inr hlive)) (by decide) hop (by omega)
      (show cint (13 + 2 ^ 31 : ℕ) < 0 by decide) storedCnt_sevenWrapped (by rw [hneed]; exact hblks)
    rw [hu] at hw
    exact absurd (Prod.mk.inj (Option.some.inj hw)).1 (by decide)

end Fcfs.Vol
