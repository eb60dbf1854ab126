import Fcfs.Vol.DirDrop

/-! # A directory that is written is read back

On a consistent volume whose cluster lists are in order, `dev_write_dir` first brings the list of the
directory to the blocks it needs (`DirGrown`), if it does not have them; then the entries are read
back, and no other file has changed (`dirBack`). -/

namespace Fcfs.Vol

open Lib.Bytes

/-- There is space for the blocks the directory lacks for the entries; the root cannot grow. -/
def DirSpace (a : Args) (s : St) (d : ℤ) (cl : List ℤ) (ent : List DirEntry) : Prop :=
  ∀ l t, devGetFileSeq a s d = some (l, t) → (l.length : ℤ) < dirNeed a ent.length →
    d ≠ 0 ∧ Space a s.dev cl (dirNeed a ent.length - l.length).toNat

/-- **The entries that are written are read back**, and every other file is as it was. -/
def DirBack (a : Args) (s : St) (d : ℤ) (ent : List DirEntry) : Prop :=
  ∃ r s', devWriteDir a s d ent = some (r, s') ∧ ReadsAs a s' d ent ∧
    ∀ g, g = 0 ∨ Live s.fsTable g → g ≠ d → Untouched a g s s'

/-- **The directory has been looked up and brought to the size it needs.** -/
structure DirGrown (a : Args) (d need : ℤ) (l l' : List BlkInfo) (s t u : St) : Prop where
  seq : devGetFileSeq a s d = some (l, t)
  grow : growTo a t l need d = some ((l'.length : ℤ), l', u)
  enough : need ≤ l'.length
  list : SeqOk a l'
  cached : u.mapSeq d = some l'
  onFile : OnFile a d s u
  avail : ∀ b ∈ l', Avail a u d b.cid b.bid

section Grow
variable {a : Args} {s : St} {d need : ℤ}

/-- The root has its seven blocks. -/
theorem Consistent.grown_root (hm : Mounted a s.dev) (hc : Consistent a s) {cl : List ℤ}
    (hroot : Firm a s 0 cl) {l : List BlkInfo} {t : St} (hseq : devGetFileSeq a s 0 = some (l, t))
    (hle : need ≤ l.length) : DirGrown a 0 need l l s t t := by
  have hlist := seqOf_of_lookup hseq
  exact ⟨hseq, if_neg (not_lt.mpr hle), hle, hc.seqOk (Or.inl rfl) hlist, (lookup_cached hseq).1,
    onFile_lookup hm hc.agree hseq, fun b hb => avail_lookup hseq (hroot.avail hlist b hb)⟩

/-- **A directory can be brought to the size it needs**, if there is space. -/
theorem Consistent.grown (hm : Mounted a s.dev) (hsm : a.cluCnt ≤ 65535) (hc : Consistent a s)
    {cls : ℤ → List ℤ} (hls : ListsOk a s cls) (hd : d = 0 ∨ Live s.fsTable d)
    {l : List BlkInfo} {t : St} (hseq : devGetFileSeq a s d = some (l, t))
    (hspace : (l.length : ℤ) < need → d ≠ 0 ∧ Space a s.dev (cls d) (need - l.length).toNat) :
    ∃ l' u, DirGrown a d need l l' s t u := by
  by_cases hd0 : d = 0
  · subst hd0
    exact ⟨l, t, hc.grown_root hm (hc.firm hm hls hd) hseq (not_lt.mp fun hlt => (hspace hlt).1 rfl)⟩
  · have hlive := hd.resolve_left hd0
    have h0 := hlive.nonneg
    obtain ⟨hcached, hdev, -⟩ := lookup_cached hseq
    have hlook := onFile_lookup hm hc.agree hseq
    obtain ⟨c, -, hg⟩ := hc.growable hm hlive hd0 (hls.listOk hlive hd0) hseq
    obtain ⟨l', u, hgrow, hle, hgr, -⟩ := growTo_eq hsm (by omega) hlive.lt hlook.mounted hlook.agree hg
      hcached (by rw [hdev]; exact fun hlt => (hspace hlt).2)
    exact ⟨l', u, hseq, hgrow, hle, hgr.list.seqOk, hgr.seq, hlook.trans hgr.onFile, hgr.list.avail⟩

end Grow

/-- **The round trip through a directory.** -/
theorem dirBack {a : Args} {s : St} (hm : Mounted a s.dev) (hsm : a.cluCnt ≤ 65535)
    (hc : Consistent a s) {cls : ℤ → List ℤ} (hls : ListsOk a s cls) {d : ℤ}
    (hd : d = 0 ∨ Live s.fsTable d) (ent : List DirEntry) (hspace : DirSpace a s d (cls d) ent) :
    DirBack a s d ent := by
  obtain ⟨l, t, hseq⟩ := hc.exists_lookup hd
  obtain ⟨l', u, h⟩ := hc.grown hm hsm hls hd hseq (hspace l t hseq)
  have hmu := h.onFile.mounted
  obtain ⟨r, s', hop, hw, hfit, hcont⟩ := devWriteDir_seq hmu h.seq h.grow h.list h.enough
  have hcached : s'.mapSeq d = some l' := by
    rw [hw.mem]
    exact h.cached
  have hon : OnFile a d s s' := h.onFile.trans (hw.onFile h.onFile.agree h.avail)
  refine ⟨r, s', hop, readsAs_written hw.mounted hcached h.list hfit hcont, fun g hg hne => ?_⟩
  exact hc.untouched hm hls hon hd hg hne

/-- A directory of one block can have a second one for sixteen entries. -/
theorem dirSpace_sevenPair : DirSpace sevenArgs sevenPair 1 [1] (List.replicate 16 secondEntry) := by
  intro l t hop _
  obtain ⟨t', hop', -⟩ := file_sevenPair (Or.inl rfl)
  obtain ⟨rfl, -⟩ := Prod.mk.inj (Option.some.inj (hop'.symm.trans hop))
  have hcount : (dirNeed sevenArgs (List.replicate 16 secondEntry).length -
      (sortNodes (sevenNodes pairTab 1 [1])).length).toNat = 1 := by
    rw [(sortNodes_perm _).length_eq]
    decide
  rw [hcount]
  exact ⟨by decide, space_pairSt _⟩

/-- The directory gets its second block, and the entries read back. -/
theorem dirBack_sevenPair : DirBack sevenArgs sevenPair 1 (List.replicate 16 secondEntry) :=
  dirBack (mounted_sevenSt _ _ _ _) (by rw [cluCnt_sevenArgs]; decide) consistent_sevenPair
    (listsOk_pairSt _) (Or.inr ((live_sevenPair (by decide)).mpr (Or.inl rfl))) _ dirSpace_sevenPair

/-- **Writing a directory changes another file**: the list of file 1 grows for 112 entries, and its
array is saved over the size of file 2. -/
theorem not_dirBack_sevenShared : Mounted sevenArgs sevenShared.dev ∧
    Consistent sevenArgs sevenShared ∧ Live sevenShared.fsTable 1 ∧ Live sevenShared.fsTable 2 ∧
    DirSpace sevenArgs sevenShared 1 sharedClrs (List.replicate 112 secondEntry) ∧
    ¬ DirBack sevenArgs sevenShared 1 (List.replicate 112 secondEntry) := by
  have hm := mounted_sevenSt sharedTab sharedData 96 (rootAnd sharedEntry)
  have hc := consistent_sevenShared
  have hlive := (live_sevenShared (f := 1) (by decide)).mpr (Or.inl rfl)
  have hlive' := (live_sevenShared (f := 2) (by decide)).mpr (Or.inr rfl)
  have hsm : sevenArgs.cluCnt ≤ 65535 := by rw [cluCnt_sevenArgs]; decide
  obtain ⟨t, hop, hdev, hbm, htbl, hcached, hg⟩ := growable_sevenShared
  have hcount : (dirNeed sevenArgs (List.replicate 112 secondEntry).length -
      (sortNodes (sevenNodes sharedTab 1 sharedClrs)).length).toNat = 1 := by
    rw [(sortNodes_perm _).length_eq, List.length_replicate]
    decide
  have hspace : DirSpace sevenArgs sevenShared 1 sharedClrs (List.replicate 112 secondEntry) := by
    intro l u hl _
    obtain ⟨rfl, -⟩ := Prod.mk.inj (Option.some.inj (hop.symm.trans hl))
    rw [hcount]
    exact ⟨by decide, space_sevenShared⟩
  refine ⟨hm, hc, hlive, hlive', hspace, ?_⟩
  rintro ⟨r, s', hw, -, hun⟩
  have hmt : Mounted sevenArgs t.dev := hdev.symm ▸ hm
  obtain ⟨l', u, hgrow, hle, hgr, -⟩ := growTo_eq hsm (by decide) hlive.lt hmt
    (by rw [hdev, hbm]; exact hc.agree) hg hcached
    fun hlt => by rw [hdev]; exact (hspace _ t hop hlt).2
  obtain ⟨r', s'', hop', hwr, -⟩ := devWriteDir_seq hgr.onFile.mounted hop hgrow hgr.list.seqOk hle
  obtain rfl : s'' = s' := (Prod.mk.inj (Option.some.inj (hop'.symm.trans hw))).2
  rw [hcount] at hgr
  obtain ⟨l₂, hseq, hne⟩ := overwritten_sevenShared hdev htbl hgr hwr
  exact hne ((hun 2 (Or.inr hlive') (by decide)).content l₂ hseq)

end Fcfs.Vol
