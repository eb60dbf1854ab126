import Fcfs.Vol.Inside

/-! # Unmounting and mounting

`ops_destroy` writes nothing, and `ops_init` reads the header, the bitmap and the table back. If the metadata
of a volume in order stands on the device (`Synced`), the volume that is mounted next is in order and stands
for the same tree (`TreeOk.remount`), except that the bits of the last clusters have to be clear, which the
driver does not write (`TailClear`). The memory it finds and the user it runs for may be others (`remounted`). -/

namespace Fcfs.Vol

open Lib.Bytes Lib.Walks Persist

/-! ### Another process -/

/-- The arguments of another process on the same volume. -/
def remounted (a : Args) (junk : Buf) (uid gid : UInt32) : Args := { a with junk := junk, uid := uid, gid := gid }

section Reopen
variable {a : Args} {s t : St} {f : ℤ} {cl : List ℤ} (junk : Buf) (uid gid : UInt32)

/-- What is stored of a file does not depend on the process. -/
theorem Stored.reopen {d : Dev} {t : FcfsTable} (h : Stored a d t f cl) : Stored (remounted a junk uid gid) d t f cl :=
  ⟨⟨h.slots, h.range, h.bound, h.short, fun hlong => ⟨(h.long hlong).pos, (h.long hlong).lt⟩⟩, h.cap, h.words⟩

theorem FileOk.reopen (h : FileOk a s f cl) : FileOk (remounted a junk uid gid) s f cl :=
  ⟨h.root, fun hf => (h.stored hf).reopen junk uid gid, h.owned, h.cache, h.nodes, h.nums, h.ne, h.cached, h.size⟩

theorem VolOk.reopen (h : VolOk a s) : VolOk (remounted a junk uid gid) s := by
  refine ⟨⟨h.mounted.geo, h.mounted.io⟩, ⟨h.agree.bit, h.agree.root⟩, fun f hf => ?_, fun f h0 hf hdead => ?_,
    h.distinct, h.lnk⟩
  · obtain ⟨cl, hnd, hok⟩ := h.files f hf
    exact ⟨cl, hnd, hok.reopen junk uid gid⟩
  · obtain ⟨cl, hfree⟩ := h.free f h0 hf hdead
    exact ⟨cl, hfree.stored.reopen junk uid gid, hfree.owned, hfree.cache, hfree.none⟩

/-- **Nor does the order of the volume**, or its tree. -/
theorem TreeOk.reopen (h : TreeOk a s) :
    ∃ h' : TreeOk (remounted a junk uid gid) s, treeOf h' = treeOf h :=
  ⟨⟨h.vol.reopen junk uid gid, ⟨(h.vol.reopen junk uid gid).sound, h.tree.nodup, h.tree.named, h.tree.files⟩,
    h.once, h.stat⟩, rfl⟩

theorem Formatted.reopen (h : Formatted a s) : Formatted (remounted a junk uid gid) s :=
  ⟨⟨h.mounted.geo, h.mounted.io⟩, h.clus, h.bits, h.rootTab, h.free, h.rootEntry, h.entrs, h.size, h.fid, h.s0Cnt,
    h.s1Cnt, h.seqs, h.ids⟩

theorem Clear.reopen (h : Clear a s) : Clear (remounted a junk uid gid) s := ⟨h.stat, h.unused⟩

theorem Synced.reopen (h : Synced a s) : Synced (remounted a junk uid gid) s :=
  ⟨⟨⟨h.mounted.geo, h.mounted.io⟩, h.head, h.bitmap, h.hash⟩, h.table⟩

end Reopen

/-! ### The same volume in new memory -/

/-- **The volume read into new memory**: the same device, the bits of its clusters and the entries of its table,
and nothing cached. -/
structure Reopened (a : Args) (s t : St) : Prop where
  dev : t.dev = s.dev
  bits : ∀ c : ℤ, 0 ≤ c → c < a.cluCnt → full t.fsBitmap c = full s.fsBitmap c
  table : s.fsTable.Same t.fsTable
  clrs : t.clrsCache.fid = -1
  s0Cnt : t.clrsCache.s0Cnt = 0
  s1Cnt : t.clrsCache.s1Cnt = 0
  seqs : ∀ f, t.mapSeq f = none
  ids : ∀ p, t.mapFid p = none

section Reopened
variable {a : Args} {s t : St} {f : ℤ} {cl : List ℤ}

theorem secAddr_same {T T' : FcfsTable} (h : T.Same T') (h0 : 0 ≤ f) (hf : f < tableLen) :
    secAddr T' f = secAddr T f := by
  unfold Vol.secAddr
  rw [h.clrs f h0 hf 13 (by decide)]

theorem live_same {T T' : FcfsTable} (h : T.Same T') : Live T' f ↔ Live T f :=
  ⟨fun hl => ⟨hl.nonneg, hl.lt, h.lnk f hl.nonneg hl.lt ▸ hl.lnk⟩,
    fun hl => ⟨hl.nonneg, hl.lt, (h.lnk f hl.nonneg hl.lt).symm ▸ hl.lnk⟩⟩

theorem Stored.same {d : Dev} {T T' : FcfsTable} (h : Stored a d T f cl) (hs : T.Same T') (h0 : 0 ≤ f)
    (hf : f < tableLen) : Stored a d T' f cl := by
  have hsec := secAddr_same hs h0 hf
  refine ⟨⟨fun i hi => ?_, h.range, h.bound, fun hle => ?_, fun hlong => ?_⟩, h.cap, fun hlong => ?_⟩
  · rw [hs.clrs f h0 hf i (by unfold clusterPerFile; omega)]
    exact h.slots i hi
  · rw [hsec]
    exact h.short hle
  · rw [hsec]
    exact h.long hlong
  · rw [hsec]
    exact h.words hlong

theorem Reopened.secOwned (hr : Reopened a s t) (h : SecOwned a s f) (h0 : 0 ≤ f) (hf : f < tableLen) :
    SecOwned a t f := by
  unfold SecOwned
  rw [secAddr_same hr.table h0 hf, hr.dev]
  exact h

theorem Reopened.cacheOk (hr : Reopened a s t) (h0 : 0 ≤ f) : CacheOk t.clrsCache f cl :=
  CacheOk.of_ne (by rw [hr.clrs]; omega)

theorem Reopened.fileOk (hr : Reopened a s t) (h : FileOk a s f cl) (h0 : 0 ≤ f) (hf : f < tableLen) :
    FileOk a t f cl := by
  refine ⟨fun hz => ?_, fun hz => ?_, hr.secOwned h.owned h0 hf, hr.cacheOk h0, by rw [hr.dev]; exact h.nodes,
    by rw [hr.dev]; exact h.nums, by rw [hr.dev]; exact h.ne, fun l hl => ?_, by rw [hr.dev]; exact h.size⟩
  · obtain ⟨hroot, hcl⟩ := h.root hz
    refine ⟨⟨?_, ?_⟩, hcl⟩
    · rw [hr.table.clrs 0 (le_refl 0) (by decide) 0 (by decide)]
      exact hroot.slot
    · rw [hr.table.clrs 0 (le_refl 0) (by decide) 13 (by decide)]
      exact hroot.sec
  · rw [hr.dev]
    exact (h.stored hz).same hr.table h0 hf
  · rw [hr.seqs] at hl
    cases hl

/-- **New memory keeps the volume in order.** -/
theorem Reopened.volOk (hr : Reopened a s t) (h : VolOk a s) : VolOk a t := by
  refine ⟨hr.dev ▸ h.mounted, ⟨fun c h0 hc => ?_, by rw [hr.dev]; exact h.agree.root⟩, fun f hf => ?_,
    fun f h0 hf hdead => ?_, fun f g hf0 hf hg0 hg hfg hne => ?_, fun f hlive hf => ?_⟩
  · rw [hr.bits c h0 hc, hr.dev]
    exact h.agree.bit c h0 hc
  · obtain ⟨h0, hlt⟩ := fid_range hf
    obtain ⟨cl, hnd, hok⟩ := h.files f (hf.imp_right (live_same hr.table).mp)
    exact ⟨cl, hnd, hr.fileOk hok h0 hlt⟩
  · obtain ⟨cl, hfree⟩ := h.free f h0 hf fun hlive => hdead ((live_same hr.table).mpr hlive)
    refine ⟨cl, ?_, hr.secOwned hfree.owned (by omega) hf, hr.cacheOk (by omega), by rw [hr.dev]; exact hfree.none⟩
    rw [hr.dev]
    exact hfree.stored.same hr.table (by omega) hf
  · rw [secAddr_same hr.table hf0 hf] at hne ⊢
    rw [secAddr_same hr.table hg0 hg]
    exact h.distinct f g hf0 hf hg0 hg hfg hne
  · rw [hr.table.lnk f hlive.nonneg hlive.lt]
    exact h.lnk f ((live_same hr.table).mp hlive) hf

/-- **And its tree.** -/
theorem Reopened.treeOk (hr : Reopened a s t) (h : TreeOk a s) : ∃ h' : TreeOk a t, treeOf h' = treeOf h := by
  have hv := hr.volOk h.vol
  have h' : TreeOk a t := by
    refine ⟨hv, ⟨hv.sound, ?_, ?_, fun ns g hg e he => (live_same hr.table).mpr ?_⟩, ?_, fun q st f _ hst _ => ?_⟩
    · rw [hr.dev]
      exact h.tree.nodup
    · rw [hr.dev]
      exact h.tree.named
    · rw [hr.dev] at hg he
      exact h.tree.files ns g hg e he
    · rw [hr.dev]
      exact h.once.congr (fun _ _ => rfl) fun g _ => live_same hr.table
    · rw [hr.ids] at hst
      cases hst
  exact ⟨h', h.treeOf_congr h' hr.dev⟩

theorem Reopened.clear (hr : Reopened a s t) : Clear a t := by
  refine ⟨fun path st _ hst => ?_, fun f h0 hf _ => ⟨hr.seqs f, by rw [hr.clrs]; omega⟩⟩
  rw [hr.ids] at hst
  cases hst

theorem Reopened.formatted (hr : Reopened a s t) (h : Formatted a s) : Formatted a t := by
  refine ⟨hr.dev ▸ h.mounted, h.clus, fun c h0 hc => ?_, fun i => ?_, fun c h1 hc => ?_, ⟨?_, ?_⟩,
    fun f h0 hf => ⟨?_, fun i hi => ?_⟩, ?_, hr.clrs, hr.s0Cnt, hr.s1Cnt, hr.seqs, hr.ids⟩
  · rw [hr.bits c h0 hc]
    exact h.bits c h0 hc
  · rw [hr.dev]
    exact h.rootTab i
  · rw [hr.dev]
    exact h.free c h1 hc
  · rw [hr.table.clrs 0 (le_refl 0) (by decide) 0 (by decide)]
    exact h.rootEntry.slot
  · rw [hr.table.clrs 0 (le_refl 0) (by decide) 13 (by decide)]
    exact h.rootEntry.sec
  · rw [hr.table.lnk f (by omega) hf]
    exact (h.entrs f h0 hf).lnk
  · rw [hr.table.clrs f (by omega) hf i hi]
    exact (h.entrs f h0 hf).clrs i hi
  · rw [hr.dev]
    exact h.size

end Reopened

/-! ### Mounting again -/

theorem bytes_same {T T' : FcfsTable} (h : T.Same T') (k : ℕ) : T'.bytes k = T.bytes k := by
  unfold FcfsTable.bytes
  rw [h.hash]
  split_ifs with hk hq
  · rfl
  · have h0 : (0 : ℤ) ≤ ((k - 8) / 34 : ℕ) := by omega
    have hlt : (((k - 8) / 34 : ℕ) : ℤ) < tableLen := by omega
    unfold TableEntry.byte
    rw [h.lnk _ h0 hlt, h.clrs _ h0 hlt ((((k - 8) % 34) - 2) / 2) (by unfold clusterPerFile; omega)]
  · rfl

/-- **What a mount reads in**: the device as it is, the table, and of the bitmap the bits the driver writes. -/
structure ReadIn (a : Args) (junk : Buf) (s t : St) : Prop where
  dev : t.dev = s.dev
  bitmap : t.fsBitmap = readBack a junk s
  table : s.fsTable.Same t.fsTable
  clrs : t.clrsCache.fid = -1
  s0Cnt : t.clrsCache.s0Cnt = 0
  s1Cnt : t.clrsCache.s1Cnt = 0
  seqs : ∀ f, t.mapSeq f = none
  ids : ∀ p, t.mapFid p = none

section Remount
variable {a : Args} {s t : St} (junk : Buf) (uid gid : UInt32)

/-- Nothing is lost if no bit behind the last whole byte is set. -/
theorem ReadIn.reopened (h : ReadIn a junk s t) (hr : Regions a.fsHead) (htail : TailClear a s) :
    Reopened a s t := by
  refine ⟨h.dev, fun c h0 hc => ?_, h.table, h.clrs, h.s0Cnt, h.s1Cnt, h.seqs, h.ids⟩
  obtain ⟨k, rfl⟩ := Int.eq_ofNat_of_zero_le h0
  show full t.fsBitmap k = _
  rw [h.bitmap, full_readBack junk hr (by omega)]
  by_cases hk : k < 8 * (a.cluCnt / 8)
  · rw [decide_eq_true hk, Bool.true_and]
  · rw [decide_eq_false hk, Bool.false_and, htail k (by omega) (by omega)]

theorem ReadIn.tailClear (h : ReadIn a junk s t) (hr : Regions a.fsHead) (hv : VolOk a s) (ht : VolOk a t) :
    TailClear a s := by
  intro c hge hc
  have hbit := ht.agree.bit c (by omega) (Int.ofNat_lt.mpr hc)
  rw [h.dev, h.bitmap, full_readBack junk hr hc, decide_eq_false (by omega), Bool.false_and,
    ← hv.agree.bit c (by omega) (Int.ofNat_lt.mpr hc)] at hbit
  exact hbit.symm

/-- **The next mount of a device that carries what was in memory.** -/
theorem Synced.mount (hs : Synced a s) (hr : Regions a.fsHead) :
    ∃ t, opsInit a.ciph junk uid gid a.fsHead.phyBlkSz.toNat (opsDestroy s) = some (remounted a junk uid gid, t) ∧
      Synced (remounted a junk uid gid) t ∧ ReadIn a junk s t := by
  obtain ⟨T, hmount, hsame⟩ := devMount_of_carries junk hr.toLayout hs.carries hs.hash
  refine ⟨⟨s.dev, readBack a junk s, T, ⟨-1, fun _ => 0, fun _ => 0, 0, 0⟩, fun _ => none, fun _ => none⟩,
    Option.bind_eq_some_iff.mpr ⟨_, hmount, rfl⟩, ⟨⟨⟨hs.mounted.geo, hs.mounted.io⟩, hs.head, fun i hi => ?_,
      hsame.hash.trans hs.hash⟩, fun i hi => ?_⟩, ⟨rfl, rfl, hsame, rfl, rfl, rfl, fun _ => rfl, fun _ => rfl⟩⟩
  · refine (hs.bitmap i hi).trans ?_
    show cut (a.cluCnt / 8) s.fsBitmap i = cut (a.cluCnt / 8) (readBack a junk s) i
    unfold cut readBack
    have hi' : i < a.btmBlkLen := hi
    split_ifs with hc
    · exact (cut_of_lt _ hc).symm
    · rfl
  · have hbytes : T.bytes = s.fsTable.bytes := funext (bytes_same hsame)
    show _ = a.ciph.encrypt a.tblBlkLen (cut sizeofTable T.bytes) i
    rw [hbytes]
    exact hs.table i hi

/-- **A volume whose metadata stands on the device is mounted as it was**, with nothing cached. -/
theorem TreeOk.remount (h : TreeOk a s) (hs : Synced a s) (hr : Regions a.fsHead) (htail : TailClear a s) :
    ∃ t, opsInit a.ciph junk uid gid a.fsHead.phyBlkSz.toNat (opsDestroy s) = some (remounted a junk uid gid, t) ∧
      Synced (remounted a junk uid gid) t ∧ Clear (remounted a junk uid gid) t ∧
        ∃ h' : TreeOk (remounted a junk uid gid) t, treeOf h' = treeOf h := by
  obtain ⟨t, hop, hst, hin⟩ := hs.mount junk uid gid hr
  have hre := hin.reopened junk hr htail
  obtain ⟨ht, htree⟩ := hre.treeOk h
  obtain ⟨ht', htree'⟩ := ht.reopen junk uid gid
  exact ⟨t, hop, hst, hre.clear.reopen junk uid gid, ht', htree'.trans htree⟩

/-- **A volume without files is mounted as one**, whatever the memory held. -/
theorem Formatted.mount (h : Formatted a s) (hs : Synced a s) (hr : Regions a.fsHead) :
    ∃ t, opsInit a.ciph junk uid gid a.fsHead.phyBlkSz.toNat (opsDestroy s) = some (remounted a junk uid gid, t) ∧
      Synced (remounted a junk uid gid) t ∧ Formatted (remounted a junk uid gid) t := by
  obtain ⟨t, hop, hst, hin⟩ := hs.mount junk uid gid hr
  have htail : TailClear a s := fun c _ hc => h.bits c (Int.natCast_nonneg c) (Int.ofNat_lt.mpr hc)
  exact ⟨t, hop, hst, ((hin.reopened junk hr htail).formatted h).reopen junk uid gid⟩

end Remount

end Fcfs.Vol
