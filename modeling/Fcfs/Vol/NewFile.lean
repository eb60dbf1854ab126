import Fcfs.Lib.Once
import Fcfs.Vol.Files
import Fcfs.Vol.StatCache

/-! # A file more in the tree

What `ops_create` and `ops_mkdir` do to the directory tree (`Entered`): one entry is appended to one
directory, and names a file that was in none and holds nothing. The tree stays consistent
(`Entered.dirTree`), every path leads where it led before (`Entered.leads`), and the path of the new
entry leads to the new file (`Entered.leads_new`). -/

namespace Fcfs.Vol

open Lib.Bytes Lib.Walks

/-! ### The new entry -/

theorem nameStr_newEntry (now : UInt64) (f : ℤ) {name : List UInt8} (mode : UInt32)
    (hlen : name.length < 32) (h0 : (0 : UInt8) ∉ name) : (newEntry now f name mode).nameStr = name := by
  unfold DirEntry.nameStr newEntry nameField
  have hmap : (List.finRange 32).map (fun i : Fin 32 => name.getD i 0) =
      name ++ List.replicate (32 - name.length) 0 := by
    refine List.ext_getElem (by simp; omega) fun i h1 h2 => ?_
    rw [List.getElem_map, List.getElem_finRange, List.getD_eq_getElem?_getD]
    simp only [Fin.val_cast]
    by_cases hi : i < name.length
    · rw [List.getElem_append_left hi, List.getElem?_eq_getElem hi, Option.getD_some]
    · rw [List.getElem_append_right (by omega), List.getElem?_eq_none (by omega), Option.getD_none,
        List.getElem_replicate]
  have hpos : ∀ x ∈ name, decide (x ≠ 0) = true := by
    intro x hx
    rw [decide_eq_true_iff]
    rintro rfl
    exact h0 hx
  rw [hmap, List.takeWhile_append_of_pos hpos, List.takeWhile_replicate]
  simp

theorem fidOf_newEntry (now : UInt64) {f : ℤ} (name : List UInt8) (mode : UInt32) (h0 : 0 ≤ f)
    (hf : f < tableLen) : fidOf (newEntry now f name mode) = f := by
  show ((u16 f).toNat : ℤ) = f
  have hlen : (tableLen : ℤ) = 65535 := rfl
  rw [toNat_u16]
  omega

/-! ### The tree -/

/-- **A file is entered in a directory**, and is in no other; it holds nothing. -/
structure Entered (a : Args) (f p : ℤ) (e : DirEntry) (s s' : St) : Prop where
  dir : dirOf a s'.dev p = dirOf a s.dev p ++ [e]
  new : dirOf a s'.dev f = []
  others : ∀ g, g = 0 ∨ Live s.fsTable g → g ≠ p → dirOf a s'.dev g = dirOf a s.dev g
  live : ∀ g, Live s.fsTable g → Live s'.fsTable g
  self : Live s'.fsTable f
  dead : ¬ (f = 0 ∨ Live s.fsTable f)
  node : fidOf e = f
  sound : Sound a s'
  ids : s'.mapFid = s.mapFid

section Entered
variable {a : Args} {s s' : St} {f p g : ℤ} {e : DirEntry}

theorem Made.entered {q : ℤ × ℕ} {now : UInt64} {name : List UInt8} {mode : UInt32}
    (h : Made a f p q (newEntry now f name mode) s s') (hf0 : 0 < f) (hft : f < tableLen)
    (hdead : ¬ Live s.fsTable f) (hv : VolOk a s') : Entered a f p (newEntry now f name mode) s s' := by
  have hlive : ∀ g, Live s.fsTable g → g ≠ f := by
    rintro g hg rfl
    exact hdead hg
  refine ⟨h.dir, entriesOf_nil (h.fileSz hf0), fun g hg hgp => ?_, fun g hg => ?_, h.live hf0 hft, ?_,
    fidOf_newEntry now name mode (by omega) hft, hv.sound, h.ids⟩
  · have hgf : g ≠ f := hg.elim (fun h0 => by omega) (hlive g)
    obtain ⟨hg0, hgt⟩ := fid_range hg
    rw [dirOf_eq, dirOf_eq, h.others g hg0 hgt hgf hgp]
  · exact ⟨hg.nonneg, hg.lt, by rw [h.links g (hlive g hg)]; exact hg.lnk⟩
  · rintro (h0 | hf)
    · omega
    · exact hdead hf

theorem MakeOk.entered {t : St} {path : Path} (hok : MakeOk a s path) (hn : Numbered a)
    (hlook : Looked a s t) {now : UInt64} {name : List UInt8} {mode : UInt32}
    (hmade : Made a (devFreeFid a s.fsTable) p (firstFree a s)
      (newEntry now (devFreeFid a s.fsTable) name mode) t s') (hvs : VolOk a s') :
    Entered a (devFreeFid a s.fsTable) p (newEntry now (devFreeFid a s.fsTable) name mode) t s' := by
  obtain ⟨hft, hdead⟩ := devFreeFid_free hn hok.fid
  exact hmade.entered hok.fid hft (by rw [hlook.table]; exact hdead) hvs

variable (h : Entered a f p e s s') (ht : DirTree a s) {ns : List (List UInt8)}
include h ht

theorem Entered.gained : Gained (dirs a s.dev) (dirOf a s'.dev) 0 p e := by
  refine ⟨h.dir, ?_, ?_⟩
  · show dirOf a s'.dev (fidOf e) = []
    rw [h.node]
    exact h.new
  · rintro g ⟨ns, hg⟩ hgp
    exact h.others g (ht.live hg) hgp

/-- **Every path leads where it led.** -/
theorem Entered.leads {path : Path} (hleads : Leads a s path g) : Leads a s' path g :=
  (h.gained ht).walk hleads

theorem Entered.through (hthrough : Through (dirs a s.dev) 0 ns g) : Through (dirs a s'.dev) 0 ns g :=
  (h.gained ht).through hthrough

theorem Entered.through_old (hthrough : Through (dirs a s'.dev) 0 ns g) :
    Through (dirs a s.dev) 0 ns g ∨ g = f := by
  rw [← h.node]
  exact (h.gained ht).through_old hthrough

/-- A path that leads somewhere led there before, or is that of the new entry. -/
theorem Entered.leads_old {path : Path} (hleads : Leads a s' path g) :
    Leads a s path g ∨ g = f ∧ ∃ ns, components path = ns ++ [e.nameStr] ∧ Through (dirs a s.dev) 0 ns p := by
  rw [← h.node]
  exact (h.gained ht).walk_old hleads

/-- An entry of a directory was there before, or is the new one. -/
theorem Entered.mem {x : DirEntry} (hthrough : Through (dirs a s'.dev) 0 ns g) (hx : x ∈ dirOf a s'.dev g) :
    Through (dirs a s.dev) 0 ns g ∧ (x ∈ dirOf a s.dev g ∨ x = e) := by
  rcases h.through_old ht hthrough with hold | rfl
  · exact ⟨hold, ((h.gained ht).mem hold.reach hx).imp_right And.right⟩
  · rw [h.new] at hx
    cases hx

/-- **The tree stays consistent**, if the name is new. -/
theorem Entered.dirTree (hname : e.nameStr ≠ []) (hnew : e.nameStr ∉ (dirOf a s.dev p).map DirEntry.nameStr) :
    DirTree a s' := by
  refine ⟨h.sound, fun ns g hthrough => ?_, fun ns g hthrough x hx => ?_, fun ns g hthrough x hx => ?_⟩
  · rcases h.through_old ht hthrough with hold | rfl
    · by_cases hgp : g = p
      · rw [hgp, h.dir, List.map_append]
        rw [hgp] at hold
        exact List.nodup_append'.mpr ⟨ht.nodup _ _ hold, List.nodup_singleton _,
          List.disjoint_singleton.mpr hnew⟩
      · rw [h.others g (ht.live hold) hgp]
        exact ht.nodup _ _ hold
    · rw [h.new]
      exact List.nodup_nil
  · obtain ⟨hold, hx | rfl⟩ := h.mem ht hthrough hx
    · exact ht.named _ _ hold x hx
    · exact hname
  · obtain ⟨hold, hx | rfl⟩ := h.mem ht hthrough hx
    · exact h.live _ (ht.files _ _ hold x hx)
    · rw [h.node]
      exact h.self

theorem Entered.stat (hc : StatOk a s) : StatOk a s' := by
  intro path st hhead hst
  rw [h.ids] at hst
  exact h.leads ht (hc path st hhead hst)

/-- **The path of the new entry leads to the new file.** -/
theorem Entered.leads_new (hp : Through (dirs a s.dev) 0 ns p) {path : Path}
    (hcomp : components path = ns ++ [e.nameStr]) : Leads a s' path f := by
  unfold Leads
  rw [hcomp]
  refine walk_snoc.mpr ⟨p, h.through ht hp, e, ?_, rfl, h.node⟩
  show e ∈ dirOf a s'.dev p
  rw [h.dir]
  exact List.mem_append_right _ (List.mem_singleton_self e)

end Entered

/-! ### A new name -/

/-- **The name is new in a directory**: a name as the kernel hands it over, that the directory does not
have. -/
structure NewName (a : Args) (s : St) (D : Path) (name : List UInt8) (p : ℤ) : Prop where
  head : D.head? = some 47
  dir : Through (dirs a s.dev) 0 (components D) p
  ne : name ≠ []
  slash : (47 : UInt8) ∉ name
  nul : (0 : UInt8) ∉ name
  new : name ∉ (dirOf a s.dev p).map DirEntry.nameStr

section NewName
variable {a : Args} {s t s' : St} {D : Path} {name : List UInt8} {p : ℤ}

theorem DirTree.of_looked (ht : DirTree a s) (h : Looked a s t) : DirTree a t := by
  refine ⟨h.sound ht.sound, ?_, ?_, ?_⟩
  · rw [h.dev]
    exact ht.nodup
  · rw [h.dev]
    exact ht.named
  · rw [h.dev, h.table]
    exact ht.files

theorem NewName.not_leads (h : NewName a s D name p) (ht : DirTree a s) (f : ℤ) :
    ¬ Leads a s (joinPath D name) f := by
  intro hleads
  unfold Leads at hleads
  rw [components_join h.head h.slash h.ne] at hleads
  obtain ⟨g, hthrough, e, he, hname, -⟩ := walk_snoc.mp hleads
  obtain rfl := Walk.unique ht.nodup hthrough.walk h.dir.walk
  exact h.new (List.mem_map.mpr ⟨e, he, hname⟩)

/-- **The volume with the new file.** -/
structure Grew (a : Args) (f p : ℤ) (path : Path) (e : DirEntry) (s t s' : St) : Prop where
  looked : Looked a s t
  vol : VolOk a s'
  entered : Entered a f p e t s'
  tree : DirTree a s'
  stat : StatOk a s'
  leads : Leads a s' path f
  size : fileSz a s'.dev (nodesAt a (tab a s'.dev) f) = 0

theorem NewName.pfid (h : NewName a s D name p) (ht : DirTree a s) (hc : StatOk a s) :
    ∃ t, fcfsGetPfid a s (joinPath D name) = some (p, t) ∧ Resolved a D p s t := by
  obtain ⟨t, hop, hres⟩ := fcfsGetFid_of_leads ht hc h.head h.dir.walk
  exact ⟨t, Option.bind_eq_some_iff.mpr ⟨_, parentPath_join h.head h.slash, hop⟩, hres⟩

/-- **What making a file does to the tree.** -/
theorem NewName.grew (h : NewName a s D name p) (hv : VolOk a s) (hn : Numbered a) (ht : DirTree a s)
    (hok : MakeOk a s (joinPath D name))
    (hforget : Forgotten s (devFreeFid a s.fsTable) (firstFree a s)) (hlen : name.length < 32)
    (hpar : fcfsGetPfid a s (joinPath D name) = some (p, t)) (hres : Resolved a D p s t)
    {now : UInt64} {mode : UInt32} (hmade : Made a (devFreeFid a s.fsTable) p (firstFree a s)
      (newEntry now (devFreeFid a s.fsTable) name mode) t s') :
    Grew a (devFreeFid a s.fsTable) p (joinPath D name) (newEntry now (devFreeFid a s.fsTable) name mode)
      s t s' := by
  have hlook := hres.looked
  have hvs := hok.volOk hn hv hforget hpar hmade
  have htt := ht.of_looked hlook
  have hent := hok.entered hn hlook hmade hvs
  have hname := nameStr_newEntry now (devFreeFid a s.fsTable) mode hlen h.nul
  refine ⟨hlook, hvs, hent, hent.dirTree htt ?_ ?_, hent.stat htt hres.stat, ?_, hmade.fileSz hok.fid⟩
  · rw [hname]
    exact h.ne
  · rw [hname, hlook.dev]
    exact h.new
  · have hdir : Through (dirs a t.dev) 0 (components D) p := by
      rw [hlook.dev]
      exact h.dir
    refine hent.leads_new htt hdir ?_
    rw [hname]
    exact components_join h.head h.slash h.ne

end NewName

end Fcfs.Vol
