import Fcfs.Vol.Links
import Fcfs.Vol.Recycle
import Fcfs.Vol.StatCache

/-! # Removing what is not there

A path that names nothing should be refused: a negative value, and the volume as it was
(`RefusesRemoval`). `ops_unlink` and `ops_rmdir` return 0 for every path. A path that resolves to the
root, as most missing ones do, leaves the volume alone; every other one takes a link from the file it
resolves to (`not_refusesRemoval`). The stat cache keeps a removed path, so removing it again takes a
link from an entry that has none, which makes 255 of them (`Formatted.removed_twice`). -/

namespace Fcfs.Vol

open Lib.Bytes Lib.Walks

/-- An operation is refused. -/
def Refused (s : St) (out : Option (ℤ × St)) : Prop := ∃ r s', out = some (r, s') ∧ r < 0 ∧ SameVol s s'

/-- **Removing the path is refused**, and so is everything `dev_rm_file` returns `-1` for. -/
structure RefusesRemoval (a : Args) (s : St) (path : Path) : Prop where
  unlink : Refused s (opsUnlink a s path)
  rmdir : Refused s (opsRmdir a s path)
  file : ∀ f p s', devRmFile a s f p = some (-1, s') → s'.fsTable = s.fsTable

section Outcome
variable {a : Args} {s s' t : St} {f p r : ℤ} {path : Path}

/-- The table tells whether `dev_rm_file` was asked for the root. -/
theorem devRmFile_table (h : devRmFile a s f p = some (r, s')) (hkeep : s'.fsTable = s.fsTable) :
    f = 0 := by
  by_contra hf
  have hlnk := devRmFile_lnkCnt hf h
  rw [hkeep] at hlnk
  grind

/-- **What a removal does**: it returns 0, and it leaves the volume alone if the path resolves to the
root. -/
theorem opsUnlink_outcome (hfid : fcfsGetFid a s path = some (f, t))
    (h : opsUnlink a s path = some (r, s')) : r = 0 ∧ (SameVol s s' ↔ f = 0) := by
  obtain ⟨⟨f', t'⟩, hfid', h⟩ := Option.bind_eq_some_iff.mp h
  obtain ⟨rfl, rfl⟩ := Prod.mk.inj (Option.some.inj (hfid.symm.trans hfid'))
  obtain ⟨⟨p, u⟩, hpar, h⟩ := Option.bind_eq_some_iff.mp h
  obtain ⟨⟨r', v⟩, hrm, h⟩ := Option.bind_eq_some_iff.mp h
  obtain ⟨rfl, rfl⟩ := Prod.mk.inj (Option.some.inj h)
  have hu := (sameVol_fcfsGetFid hfid).trans (sameVol_fcfsGetPfid hpar)
  refine ⟨rfl, fun hsame => ?_, fun h0 => ?_⟩
  · exact devRmFile_table hrm (hsame.table.trans hu.table.symm)
  · unfold devRmFile at hrm
    rw [if_pos h0] at hrm
    obtain ⟨-, rfl⟩ := Prod.mk.inj (Option.some.inj hrm)
    exact hu

theorem not_refused_unlink : ¬ Refused s (opsUnlink a s path) := by
  rintro ⟨r, s', h, hr, -⟩
  obtain ⟨⟨f, t⟩, hfid, -⟩ := Option.bind_eq_some_iff.mp h
  have h0 := (opsUnlink_outcome hfid h).1
  omega

end Outcome

/-- **No removal is refused**, in any state. The volume is left alone exactly if the path resolves to
the root, and the table, when `dev_rm_file` returns `-1`, exactly if it was asked for the root. -/
theorem not_refusesRemoval (a : Args) (s : St) (path : Path) : ¬ RefusesRemoval a s path ∧
    (∀ f t r s', fcfsGetFid a s path = some (f, t) → opsUnlink a s path = some (r, s') ∨
      opsRmdir a s path = some (r, s') → r = 0 ∧ (SameVol s s' ↔ f = 0)) ∧
    ∀ f p s', devRmFile a s f p = some (-1, s') → (s'.fsTable = s.fsTable ↔ f = 0) := by
  refine ⟨fun h => not_refused_unlink h.unlink, fun f t r s' hfid h => ?_, fun f p s' h => ?_⟩
  · rw [opsRmdir_eq, or_self] at h
    exact opsUnlink_outcome hfid h
  · refine ⟨devRmFile_table h, fun h0 => ?_⟩
    unfold devRmFile at h
    rw [if_pos h0] at h
    obtain ⟨-, rfl⟩ := Prod.mk.inj (Option.some.inj h)
    rfl

/-! ### Removing a path twice -/

section Twice
variable {a : Args} {s s' t : St} {f r : ℤ} {path : Path}

/-- **The path of a removed file** resolves to the file. -/
theorem VolOk.unlink_stale (hv : VolOk a s) (hn : Numbered a) (hok : RemoveOk a s path)
    (hfid : fcfsGetFid a s path = some (f, t)) (hf0 : f ≠ 0) (hpath : path ≠ [])
    (h : opsUnlink a s path = some (r, s')) :
    VolOk a s' ∧ (s'.fsTable.entrs f).lnkCnt = 0 ∧ fcfsGetFid a s' path = some (f, s') := by
  obtain ⟨⟨f', t'⟩, hfid', hrest⟩ := Option.bind_eq_some_iff.mp h
  obtain ⟨rfl, rfl⟩ := Prod.mk.inj (Option.some.inj (hfid.symm.trans hfid'))
  obtain ⟨⟨p, u⟩, hpar, -⟩ := Option.bind_eq_some_iff.mp hrest
  obtain ⟨hlive, hp, hne⟩ := (hok f t p u hfid hpar).resolve_left hf0
  obtain ⟨v, hop, hvv, hrem⟩ := hv.remove hn hfid hpar hlive hf0 hp hne
  obtain ⟨-, rfl⟩ := Prod.mk.inj (Option.some.inj (h.symm.trans hop))
  obtain ⟨st, hst, hdev⟩ := mapFid_of_getFid hfid hf0
  have hsame := (sameVol_fcfsGetFid hfid).trans (sameVol_fcfsGetPfid hpar)
  refine ⟨hvv, ?_, ?_⟩
  · rw [hrem.entry, hsame.table]
    show (s.fsTable.entrs f).lnkCnt - 1 = 0
    rw [hv.lnk f hlive hf0]
    rfl
  · rw [← hdev]
    refine fcfsGetFid_cached ?_ hpath
    rw [hrem.ids]
    exact mapFid_getPfid hpar hst

/-- **A link is taken from a file that has none.** -/
theorem VolOk.rmFile_dead (hv : VolOk a s) (h0 : 0 < f) (hft : f < tableLen)
    (hlnk : (s.fsTable.entrs f).lnkCnt = 0) (p : ℤ) :
    ∃ s', devRmFile a s f p = some (-1, s') ∧ (s'.fsTable.entrs f).lnkCnt = 255 := by
  have hf0 : f ≠ 0 := by omega
  obtain ⟨cl, hfree⟩ := hv.free f h0 hft fun hlive => hlive.lnk hlnk
  obtain ⟨c, hcnt, -⟩ := devTblClrsCnt_eq hv.mounted hf0 hfree.stored hfree.cache
  have hwrap : (unlinked (s.fsTable.entrs f)).lnkCnt = 255 := by
    unfold unlinked
    rw [hlnk]
    rfl
  refine ⟨dropLink s f c, ?_, ?_⟩
  · unfold devRmFile
    rw [if_neg hf0]
    refine Option.bind_eq_some_iff.mpr ⟨_, hcnt, ?_⟩
    show (if (unlinked (s.fsTable.entrs f)).lnkCnt ≠ 0 then _ else _) = _
    rw [if_pos (by rw [hwrap]; decide)]
    rfl
  · unfold dropLink
    rw [setEntry_self, hwrap]

/-- **A formatted volume reaches a state where a path that names nothing resolves to a removed file.**
Removing the path there leaves 255 links to the file. -/
theorem Formatted.removed_twice (h : Formatted a s) (hn : Numbered a) (hclu : 3 ≤ a.cluCnt)
    (htbl : 2 ≤ a.fsHead.tblCnt.toNat) {size : ℕ} (hint : 0 + 4 + size < 2 ^ 31)
    (hspace : writeNeed a size 0 ≤ 7 * (a.cluCnt - 2 : ℕ)) (hcap : writeNeed a size 0 ≤ 12 + secCap a) :
    ∃ s', Relation.ReflTransGen (CleanStep a) s s' ∧ dirOf a s'.dev 0 = [] ∧
      fcfsGetFid a s' (rootName 97) = some (1, s') ∧
      ∃ u, opsUnlink a s' (rootName 97) = some (0, u) ∧ (u.fsTable.entrs 1).lnkCnt = 255 := by
  obtain ⟨t, hmake, hforget, hopt, hfirst, -⟩ := h.make hn (by omega) htbl
  obtain ⟨u, hwrite, hopu, hvu, hwritten⟩ := hfirst.write hn (fun _ => 0) hint
    (hfirst.fits hclu hspace hcap)
  obtain ⟨v, hremove, hopv, hgone, w, hfid⟩ := hfirst.remove hn hvu hwritten
  obtain ⟨⟨r, v'⟩, hunlink, rfl⟩ := Option.map_eq_some_iff.mp hopv
  obtain ⟨hvv, hlnk, hstale⟩ := hvu.unlink_stale hn hremove hfid (by decide) (by decide) hunlink
  obtain ⟨x, hrm, h255⟩ := hvv.rmFile_dead (by decide) (by decide) hlnk 0
  refine ⟨v', ?_, hgone.dir, hstale, x, ?_, h255⟩
  · exact ((Relation.ReflTransGen.single ⟨_, hmake, hforget, hopt⟩).tail
      ⟨_, hwrite, trivial, hopu⟩).tail ⟨_, hremove, trivial, hopv⟩
  · refine Option.bind_eq_some_iff.mpr ⟨_, hstale, ?_⟩
    refine Option.bind_eq_some_iff.mpr ⟨_, fcfsGetPfid_root (by decide) hgone.root, ?_⟩
    exact Option.bind_eq_some_iff.mpr ⟨_, hrm, rfl⟩

end Twice

theorem not_leads_root {a : Args} {s : St} {x : UInt8} (hx : x ≠ 47) (h : dirOf a s.dev 0 = []) :
    ¬ ∃ f, Leads a s (rootName x) f := by
  rintro ⟨f, hleads⟩
  have hcomp : components (rootName x) = [[x]] :=
    components_single (by simpa using Ne.symm hx) (by simp)
  unfold Leads at hleads
  rw [hcomp] at hleads
  obtain ⟨e, he, -⟩ := hleads.exists_first
  change e ∈ dirOf a s.dev 0 at he
  rw [h] at he
  cases he

/-- On a volume of seven clusters: a file is made, written to and removed, and its path is removed once
more. -/
theorem not_refusesRemoval_of_run : ¬ ∀ (a : Args) (s₀ s : St) (path : Path), Formatted a s₀ →
    Numbered a → Relation.ReflTransGen (CleanStep a) s₀ s → path.head? = some 47 →
      (¬ ∃ f, Leads a s path f) → RefusesRemoval a s path := by
  intro h
  have hneed : writeNeed sevenArgs 1 0 = 1 := by decide
  have hint : 0 + 4 + 1 < 2 ^ 31 := by decide
  have hname : (97 : UInt8) ≠ 47 := by decide
  obtain ⟨s, hrun, hdir, -, u, hunlink, -⟩ := formatted_sevenFresh.removed_twice numbered_seven
    (by decide) (by decide) hint (by rw [hneed]; decide) (by rw [hneed]; decide)
  obtain ⟨r, s', hop, hr, -⟩ := (h _ _ s _ formatted_sevenFresh numbered_seven hrun rfl
    (not_leads_root hname hdir)).unlink
  obtain ⟨rfl, -⟩ := Prod.mk.inj (Option.some.inj (hunlink.symm.trans hop))
  omega

end Fcfs.Vol
