import Fcfs.Vol.Account

/-! # How long the cluster lists are

A cluster is noted for a file when the file gets a block in it, so the list of clusters is never longer than
that of the blocks (`Tight`). Growing a file to the blocks it needs brings it to just these (`BroughtTo`), and
removing a file leaves the lists of the others as they are. -/

namespace Fcfs.Vol

open Lib.Bytes

/-- **No more clusters than blocks** are listed for the file. -/
def Tight (a : Args) (s : St) (f : ℤ) : Prop :=
  ∀ cl, Stored a s.dev s.fsTable f cl → cl.length ≤ (nodesAt a (tab a s.dev) f).length

section Tight
variable {a : Args} {s t u : St} {f g : ℤ} {cl : List ℤ}

theorem Tight.of_stored (h : Stored a s.dev s.fsTable f cl)
    (hle : cl.length ≤ (nodesAt a (tab a s.dev) f).length) : Tight a s f := fun cl' h' => by
  rw [h'.unique h]
  exact hle

theorem Tight.congr (h : Tight a s f) (htab : tab a t.dev = tab a s.dev) (hdata : data a t.dev = data a s.dev)
    (htbl : t.fsTable = s.fsTable) : Tight a t f := fun cl hst => by
  rw [htbl] at hst
  rw [htab]
  exact h cl (hst.views hdata.symm)

theorem Tight.of_looked (h : Tight a s f) (hlook : Looked a s t) : Tight a t f :=
  h.congr (by rw [hlook.dev]) (by rw [hlook.dev]) hlook.table

/-- **Work on another file** leaves the list as it is. -/
theorem VolBut.tight {N : Set ℤ} (hv : VolBut a N s) (hon : OnFile a g s t) (hg0 : 0 ≤ g) (hgt : g < tableLen)
    (hfN : f ∉ N) (hf : Live s.fsTable f) (hf0 : f ≠ 0) (hfg : f ≠ g) (h : Tight a s f) : Tight a t f := by
  obtain ⟨cl, -, hok⟩ := hv.files f hfN (Or.inr hf)
  have hst := hok.stored hf0
  have hdis := hv.distinct f g hf.nonneg hf.lt hg0 hgt hfg
  refine .of_stored (stored_other hon hg0 hgt hfg hv.mounted.geo.le_lblkSz hst hok.owned hdis) ?_
  rw [nodesAt_other hon hg0 hgt hfg hf.nonneg hf.lt]
  exact h cl hst

end Tight

/-! ### Growing -/

/-- **The file has got the blocks it needs**, and no more, and their clusters are noted. -/
structure BroughtTo (a : Args) (f need : ℤ) (s s' : St) : Prop where
  size : ((nodesAt a (tab a s'.dev) f).length : ℤ) = max ((nodesAt a (tab a s.dev) f).length : ℤ) need
  tight : f ≠ 0 → Tight a s f → Tight a s' f

section Grow
variable {a : Args} {s t u s' : St} {f need : ℤ} {cl : List ℤ} {l l' : List BlkInfo}

/-- **Growing brings a file to the blocks it needs.** -/
theorem FileOk.broughtTo {z : ℤ} (hm : Mounted a s.dev) (hag : Agree a s.dev s.fsBitmap) (hsm : a.cluCnt ≤ 65535)
    (hok : FileOk a s f cl) (hf0 : 0 ≤ f) (hft : f < tableLen) (hfits : Fits a s f need)
    (hop : devGetFileSeq a s f = some (l, t)) (hgrow : growTo a t l need f = some (z, l', u)) :
    BroughtTo a f need s u := by
  obtain ⟨l₀, c, hop', hl, hc⟩ := hok.lookup hm
  obtain ⟨rfl, rfl⟩ := Prod.mk.inj (Option.some.inj (hop.symm.trans hop'))
  have hfit := hfits cl hok
  rw [← hl.length_eq] at hfit
  unfold growTo at hgrow
  by_cases hlt : (l.length : ℤ) < need
  · obtain ⟨hf, hspace, hcap⟩ := hfit hlt
    obtain ⟨new, v, hext, hnew, hgr⟩ := devExtdBlkList_eq (s := looked s f c l) hsm (by omega) hft hm hag
      (hok.growable hag (by omega) hft hl hc) (by omega) hspace
    rw [if_pos hlt, hext] at hgrow
    obtain ⟨-, hrest⟩ := Prod.mk.inj (Option.some.inj hgrow)
    obtain ⟨rfl, rfl⟩ := Prod.mk.inj hrest
    -- the new list is that of the nodes in the tables
    have hperm : (l ++ new).Perm (nodesAt a (tab a v.dev) f) := hgr.list.perm_nodesAt hf fun b hb i hi => by
      rcases List.mem_append.mp hb with hold | hin
      · obtain ⟨-, j, hj, -, hn⟩ := (mem_nodesAt hf).mp (hl.mem_iff.mp hold)
        obtain rfl : j = i := Fin.ext (by omega)
        rw [hgr.kept b hold j hi, hn]
        rfl
      · exact hgr.nums b hin i hi
    have hlen : (nodesAt a (tab a v.dev) f).length = l.length + (need - l.length).toNat := by
      rw [← hperm.length_eq, List.length_append, hnew]
    refine ⟨?_, fun _ hlist => .of_stored (hgr.stored hcap) ?_⟩
    · rw [hlen, ← hl.length_eq, max_eq_right hlt.le]
      omega
    · have hnoted := length_foldl_noteClr_le a ((nextBlks a s.dev (need - l.length).toNat).map BlkInfo.cid) cl
      rw [List.length_map, length_nextBlks hspace.blks] at hnoted
      have hold := hlist cl (hok.stored hf)
      rw [← hl.length_eq] at hold
      rw [hlen]
      exact hnoted.trans (Nat.add_le_add_right hold _)
  · rw [if_neg hlt] at hgrow
    obtain ⟨-, hrest⟩ := Prod.mk.inj (Option.some.inj hgrow)
    obtain ⟨rfl, rfl⟩ := Prod.mk.inj hrest
    rw [hl.length_eq, not_lt] at hlt
    exact ⟨(max_eq_left hlt).symm, fun _ => id⟩

theorem BroughtTo.wrote (h : BroughtTo a f need s u) (hw : Wrote a l' u s') (hl : l'.Perm (nodesAt a (tab a u.dev) f))
    (hok : FileOk a u f cl) (hf0 : 0 ≤ f) (hft : f < tableLen) (hL : 1024 ≤ a.lblkSz) : BroughtTo a f need s s' := by
  refine ⟨by rw [hw.tabs]; exact h.size, fun hf hlist => ?_⟩
  have htab : s'.fsTable = u.fsTable := by rw [hw.mem]
  have hst := hok.stored hf
  have hstored : Stored a s'.dev s'.fsTable f cl := by
    rw [htab]
    refine hst.congr hL fun b _ _ => hw.blks _ _ fun hin => ?_
    -- no block of the file lies in its address cluster
    obtain ⟨b', hb', heq⟩ := List.mem_map.mp hin
    have hcid : b'.cid = secAddr u.fsTable f := congrArg Prod.fst heq
    obtain ⟨⟨h1, -⟩, i, -, hfid, -⟩ := (mem_nodesAt hf).mp (hl.mem_iff.mp hb')
    rw [hcid] at h1 hfid
    rw [hok.owned.resolve_left (by omega) i] at hfid
    exact (u32_fid (by omega) hft).2 hfid.symm
  refine .of_stored hstored ?_
  rw [hw.tabs]
  exact h.tight hf hlist cl hst

/-- **`dev_write_dir` takes the blocks it needs**, and no more. -/
theorem FileOk.broughtTo_writeDir (hm : Mounted a s.dev) (hag : Agree a s.dev s.fsBitmap) (hsm : a.cluCnt ≤ 65535)
    (hok : FileOk a s f cl) (hnd : cl.Nodup) (hf0 : 0 ≤ f) (hft : f < tableLen) {ent : List DirEntry} {r : ℤ}
    (hfits : Fits a s f (dirNeed a ent.length)) (h : devWriteDir a s f ent = some (r, s')) :
    BroughtTo a f (dirNeed a ent.length) s s' := by
  obtain ⟨l, t, l', u, hop, hgrow, hle, hheld, -⟩ := hok.hold hm hag hsm hnd hf0 hft hfits
  obtain ⟨cl', -, hoku, -⟩ := hheld.ok
  have hmu := hheld.onFile.mounted
  obtain ⟨r', v, hwrite, hw, -⟩ := devWriteDir_seq hmu hop hgrow (hoku.seqOk.perm hheld.list) hle
  obtain ⟨-, rfl⟩ := Prod.mk.inj (Option.some.inj (h.symm.trans hwrite))
  exact (hok.broughtTo hm hag hsm hf0 hft hfits hop hgrow).wrote hw hheld.list hoku hf0 hft hmu.geo.le_lblkSz

/-- **`ops_write` takes the blocks it needs**, and no more. -/
theorem FileOk.broughtTo_write {s₀ : St} (hm : Mounted a s.dev) (hag : Agree a s.dev s.fsBitmap)
    (hsm : a.cluCnt ≤ 65535) (hok : FileOk a s f cl) (hnd : cl.Nodup) (hf0 : 0 ≤ f) (hft : f < tableLen)
    {path : Path} {fh r : ℤ} {data : Buf} {size offset : ℕ} (hfid : writeFid a s₀ path fh = some (f, s))
    (hlen : offset + 4 + size < 2 ^ 31) (hfits : Fits a s f (writeNeed a size offset))
    (h : opsWrite a s₀ path data size offset fh = some (r, s')) : BroughtTo a f (writeNeed a size offset) s s' := by
  have hL : 1024 ≤ a.lblkSz := hm.geo.le_lblkSz
  obtain ⟨l, t, l', u, hop, hgrow, hle, hheld, -⟩ := hok.hold hm hag hsm hnd hf0 hft hfits
  obtain ⟨cl', -, hoku, -⟩ := hheld.ok
  obtain ⟨hneed, hcnt⟩ := writeNeed_eq hm hlen
  have hsz := hok.size
  have hbytes := hok.seqOk.bytes_lt hm
  have hne' : l' ≠ [] := by
    rintro rfl
    exact hoku.ne hheld.list.symm.eq_nil
  have hle' : pages a.lblkSz (offset + 4 + size) ≤ l'.length := by
    rw [hneed] at hle
    exact Int.ofNat_le.mp hle
  obtain ⟨v, w, tmp, hread, hwrite, hsize, hset, hw, -⟩ := write_pages hheld.onFile.mounted
    (hoku.seqOk.perm hheld.list) hne' hheld.seq data hle' hlen (by rw [hheld.fileSz hok hL]; omega)
  have hbrought := (hok.broughtTo hm hag hsm hf0 hft hfits hop hgrow).wrote hw hheld.list hoku hf0 hft hL
  have hfsz : fileSz a u.dev l' < 2 ^ 31 := by rw [hheld.fileSz hok hL]; omega
  have hblk : ((offset + 4 : ℕ) : ℤ) / (a.lblkSz : ℤ) = ((offset + 4) / a.lblkSz : ℕ) := by
    rw [Int.natCast_ediv]
  suffices heq : opsWrite a s₀ path data size offset fh = some (cint size, w) by
    obtain ⟨-, rfl⟩ := Prod.mk.inj (Option.some.inj (h.symm.trans heq))
    exact hbrought
  unfold writeNeed at hgrow
  unfold opsWrite
  refine Option.bind_eq_some_iff.mpr ⟨_, hfid, Option.bind_eq_some_iff.mpr ⟨_, hop, ?_⟩⟩
  refine Option.bind_eq_some_iff.mpr ⟨_, hgrow, ?_⟩
  dsimp only
  rw [hcnt, hblk, if_neg (Int.not_lt.mpr (Int.natCast_nonneg _)),
    if_neg (Int.not_lt.mpr (Int.natCast_nonneg _)), Int.toNat_natCast]
  refine Option.bind_eq_some_iff.mpr ⟨_, hread, Option.bind_eq_some_iff.mpr ⟨_, hwrite, ?_⟩⟩
  dsimp only
  rw [if_pos rfl]
  refine Option.bind_eq_some_iff.mpr ⟨_, hsize, ?_⟩
  dsimp only
  rw [write_size hfsz hlen]
  exact Option.bind_eq_some_iff.mpr ⟨_, hset, rfl⟩

end Grow

/-! ### Removing -/

section Remove
variable {a : Args} {s t : St} {f g p r : ℤ}

/-- Taking an entry out of a directory leaves the lists as they are. -/
theorem VolOk.tight_rmFromDir (hv : VolOk a s) (hsm : a.cluCnt ≤ 65535) (hp : p = 0 ∨ Live s.fsTable p)
    (hg : Live s.fsTable g) (hg0 : g ≠ 0) (h : devRmFromDir a s p f = some (r, t)) (htight : Tight a s g) :
    Tight a t g := by
  obtain ⟨r₀, u, hop, hr, hlook, -⟩ := devReadDir_eq hv.sound hp
  have hvu := hlook.volOk hv
  have hpu : p = 0 ∨ Live u.fsTable p := by
    rw [hlook.table]
    exact hp
  have hdir : dirOf a u.dev p = dirOf a s.dev p := by rw [hlook.dev]
  obtain ⟨hp0, hpt⟩ := fid_range hp
  have hu : Tight a u g := htight.of_looked hlook
  unfold devRmFromDir at h
  rw [hop, Option.bind_eq_bind, Option.bind_some] at h
  dsimp only at h
  rw [hr] at h
  cases hdrop : dropEntry (dirOf a s.dev p) f with
  | none =>
    rw [hdrop] at h
    obtain ⟨-, rfl⟩ := Prod.mk.inj (Option.some.inj h)
    exact hu
  | some ent =>
    rw [hdrop] at h
    obtain ⟨⟨r', v⟩, hw, h⟩ := Option.bind_eq_some_iff.mp h
    obtain ⟨-, rfl⟩ := Prod.mk.inj (Option.some.inj h)
    obtain ⟨cl, hnd, hok⟩ := hvu.files p hpu
    have hle := hok.dirNeed_le hvu.mounted (n := ent.length) (by rw [hdir, dropEntry_length hdrop]; omega)
    by_cases hgp : g = p
    · subst hgp
      exact (hok.broughtTo_writeDir hvu.mounted hvu.agree hsm hnd hp0 hpt (fits_of_le hle) hw).tight hg0 hu
    · obtain ⟨r'', v', hw', hwr, -⟩ := hok.writeDir hvu.mounted hvu.agree hsm hnd hp0 hpt ent (fits_of_le hle)
      obtain ⟨-, rfl⟩ := Prod.mk.inj (Option.some.inj (hw.symm.trans hw'))
      exact (hvu.but ∅).tight hwr.onFile hp0 hpt (Set.notMem_empty g) (by rw [hlook.table]; exact hg) hg0 hgp hu

/-- **`dev_rm_file` leaves the lists of the other files** as they are. -/
theorem VolOk.tight_rmFile (hv : VolOk a s) (hsm : a.cluCnt ≤ 65535) (hf : Live s.fsTable f) (hf0 : f ≠ 0)
    (hp : p = 0 ∨ Live s.fsTable p) (hne : p ≠ f) (hg : Live s.fsTable g) (hg0 : g ≠ 0) (hgf : g ≠ f)
    (h : devRmFile a s f p = some (r, t)) (htight : Tight a s g) : Tight a t g := by
  have h0 := hf.nonneg
  have hft := hf.lt
  obtain ⟨cl, -, hok⟩ := hv.files f (Or.inr hf)
  obtain ⟨c, u, hcnt, hrm, hon, hfree, -, hl, hmem⟩ := (hok.covers hf0).freed hv.mounted hv.agree (by omega) hft
  have hzero : (unlinked (s.fsTable.entrs f)).lnkCnt = 0 := by
    unfold unlinked
    rw [hv.lnk f hf hf0]
    rfl
  have hent : u.fsTable.entrs f = unlinked (s.fsTable.entrs f) := by
    rw [hmem]
    exact setEntry_self _ _ _
  have hdead : ¬ Live u.fsTable f := fun hlive => hlive.lnk (by rw [hent]; exact hzero)
  have hvu : VolOk a u := hv.step hon h0 hft (fun hlive => absurd (hlive.resolve_left hf0) hdead)
    (fun _ _ => ⟨cl, hfree⟩) fun hlive => absurd hlive hdead
  have hu : Tight a u g := (hv.but ∅).tight hon h0 hft (Set.notMem_empty g) hg hg0 hgf htight
  have hlen : cl.length < 2 ^ 31 := (hok.stored hf0).slotted.length_lt hv.mounted
  unfold devRmFile at h
  rw [if_neg hf0, hcnt, Option.bind_eq_bind, Option.bind_some] at h
  change (if (unlinked (s.fsTable.entrs f)).lnkCnt ≠ 0 then _ else _) = _ at h
  rw [if_neg (not_not.mpr hzero), toSizeT_natCast hlen] at h
  obtain ⟨u', hrm', h⟩ := Option.bind_eq_some_iff.mp h
  obtain rfl := Option.some.inj (hrm.symm.trans hrm')
  obtain ⟨⟨r', v⟩, hdel, h⟩ := Option.bind_eq_some_iff.mp h
  obtain ⟨-, rfl⟩ := Prod.mk.inj (Option.some.inj h)
  have hpu : p = 0 ∨ Live u.fsTable p := by
    rw [live_congr (hon.others p hne)]
    exact hp
  have hgu : Live u.fsTable g := (live_congr (hon.others g hgf)).mpr hg
  have hv' := hvu.tight_rmFromDir hsm hpu hgu hg0 hdel hu
  -- the table is written last
  obtain ⟨r'', w, hdel', hvw, -⟩ := hvu.rmFromDir hsm hpu f
  obtain ⟨-, rfl⟩ := Prod.mk.inj (Option.some.inj (hdel.symm.trans hdel'))
  obtain ⟨htab, hdata⟩ := views_putTable hvw.mounted v.fsTable
  rw [devWriteTable_putTable hvw.mounted]
  exact hv'.congr htab hdata rfl

end Remove

end Fcfs.Vol
