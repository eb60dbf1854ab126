import Fcfs.Vol.DirDrop
import Fcfs.Vol.Stale

/-! # The namespace

Every file has one entry, in one of the directories that can be reached from the root, and every entry
there names a file (`NamespaceOk`). Making and removing files keeps it so, and writing to them, as long as
no directory is removed that has entries, none is written to, and the caches hold nothing of the last
file with an identifier or a path (`namespaceOk_of_run`). What was in a directory that has been removed is
in none that can be reached (`not_namespaceOk_of_run`). -/

namespace Fcfs.Vol

open Lib.Bytes Lib.Walks

/-- **The namespace is in order**: a file is in exactly one entry of exactly one directory that can be
reached, the entries there name files, and no two of them the same. -/
structure NamespaceOk (a : Args) (s : St) : Prop where
  once : ∀ f, f ≠ 0 → Live s.fsTable f → ∃ g, Reach (dirs a s.dev) 0 g ∧
    ((dirOf a s.dev g).map fidOf).count f = 1 ∧
      ∀ h, Reach (dirs a s.dev) 0 h → f ∈ (dirOf a s.dev h).map fidOf → h = g
  live : ∀ g, Reach (dirs a s.dev) 0 g → ∀ e ∈ dirOf a s.dev g, Live s.fsTable (fidOf e)
  apart : ∀ g h (i j : ℕ) x y, Reach (dirs a s.dev) 0 g → Reach (dirs a s.dev) 0 h →
    (dirOf a s.dev g)[i]? = some x → (dirOf a s.dev h)[j]? = some y → fidOf x = fidOf y → g = h ∧ i = j

/-- **What keeps it in order**: the volume is in order and its directories are a tree that names every
file once, and the stat cache is accurate on what is there. -/
structure TreeOk (a : Args) (s : St) : Prop where
  vol : VolOk a s
  tree : DirTree a s
  once : Once (dirs a s.dev) 0 (Live s.fsTable)
  stat : StatOn a s

section Tree
variable {a : Args} {s s' t : St} {f g p : ℤ} {path : Path}

theorem TreeOk.namespaceOk (h : TreeOk a s) : NamespaceOk a s := by
  have ho := h.once
  refine ⟨fun f hf hlive => ?_, fun g hg e he => ?_, fun g k i j x y hg hk hx hy hfid => ?_⟩
  · obtain ⟨g, hg, hmem⟩ := ho.found f hf hlive
    refine ⟨g, hg, List.count_eq_one_of_mem (ho.nodup g hg) hmem, fun k hk hin => ?_⟩
    exact ho.apart k g hk hg f hin hmem
  · exact (ho.named g hg _ (List.mem_map_of_mem he)).2
  · have hin : fidOf x ∈ (dirs a s.dev).nodes g := List.mem_map_of_mem (List.mem_of_getElem? hx)
    have hin' : fidOf x ∈ (dirs a s.dev).nodes k := by
      rw [hfid]
      exact List.mem_map_of_mem (List.mem_of_getElem? hy)
    obtain rfl := ho.apart g k hg hk _ hin hin'
    refine ⟨rfl, ?_⟩
    have hnd : ((dirOf a s.dev g).map fidOf).Nodup := ho.nodup g hg
    have hi : i < ((dirOf a s.dev g).map fidOf).length := by
      rw [List.length_map]
      exact (List.getElem?_eq_some_iff.mp hx).1
    refine (List.getElem?_inj hi hnd).mp ?_
    rw [List.getElem?_map, List.getElem?_map, hx, hy, Option.map_some, Option.map_some, hfid]

theorem Formatted.treeOk (h : Formatted a s) : TreeOk a s := by
  have hreach : ∀ g, Reach (dirs a s.dev) 0 g → dirOf a s.dev g = [] := by
    rintro g ⟨ns, hg⟩
    cases hg with
    | nil => exact h.dirOf_root
    | cons he =>
      change _ ∈ dirOf a s.dev 0 at he
      rw [h.dirOf_root] at he
      cases he
  have hnodes : ∀ g, Reach (dirs a s.dev) 0 g → (dirs a s.dev).nodes g = [] := fun g hg =>
    congrArg (List.map fidOf) (hreach g hg)
  refine ⟨h.volOk, h.dirTree, ⟨fun g hg => ?_, fun g k hg _ f hf => ?_, fun g hg f hf => ?_,
    fun f hf hlive => ?_⟩, h.statOk.on h.dirTree⟩
  · rw [hnodes g hg]
    exact List.nodup_nil
  · rw [hnodes g hg] at hf
    cases hf
  · rw [hnodes g hg] at hf
    cases hf
  · exact absurd (h.bare.eq_root (Or.inr hlive)) hf

theorem TreeOk.of_traced (h : TreeOk a s) (htr : Traced a path f s t) : TreeOk a t := by
  have hlook := htr.looked
  refine ⟨hlook.volOk h.vol, h.tree.of_looked hlook, ?_, htr.statOn h.tree h.stat⟩
  rw [hlook.dev, hlook.table]
  exact h.once

/-- **Changes that no directory shows** leave it in order. -/
theorem TreeOk.congr (h : TreeOk a s) (hv : VolOk a s')
    (hsame : ∀ g, Reach (dirs a s.dev) 0 g → dirOf a s'.dev g = dirOf a s.dev g)
    (hlive : ∀ g, g ≠ 0 → (Live s'.fsTable g ↔ Live s.fsTable g)) (hids : s'.mapFid = s.mapFid) :
    TreeOk a s' := by
  have hthrough : ∀ {ns g}, Through (dirs a s'.dev) 0 ns g → Through (dirs a s.dev) 0 ns g := fun hg =>
    (through_congr (D := dirs a s.dev) hsame).mp hg
  refine ⟨hv, ⟨hv.sound, fun ns g hg => ?_, fun ns g hg => ?_, fun ns g hg e he => ?_⟩,
    h.once.congr hsame hlive, fun q st f hhead hst hleads => ?_⟩
  · rw [hsame g (hthrough hg).reach]
    exact h.tree.nodup ns g (hthrough hg)
  · rw [hsame g (hthrough hg).reach]
    exact h.tree.named ns g (hthrough hg)
  · rw [hsame g (hthrough hg).reach] at he
    obtain ⟨hne, hl⟩ := h.once.named g (hthrough hg).reach _ (List.mem_map_of_mem he)
    exact (hlive _ hne).mpr hl
  · rw [hids] at hst
    exact h.stat q st f hhead hst ((walk_congr (D := dirs a s.dev) hsame).mp hleads)

end Tree

/-! ### Making a file -/

theorem components_inj {q q' : Path} (hhead : q.head? = some 47) (hhead' : q'.head? = some 47)
    (h : components q = components q') : q = q' := by
  obtain ⟨bs, rfl⟩ : ∃ bs, q = 47 :: bs := ⟨q.tail, (List.cons_head?_tail hhead).symm⟩
  obtain ⟨bs', rfl⟩ : ∃ bs', q' = 47 :: bs' := ⟨q'.tail, (List.cons_head?_tail hhead').symm⟩
  unfold components at h
  rw [List.tail_cons, List.tail_cons] at h
  by_cases hr : (47 :: bs : Path) = rootPath
  · by_cases hr' : (47 :: bs' : Path) = rootPath
    · rw [hr, hr']
    · rw [if_pos hr, if_neg hr'] at h
      exact absurd h.symm (List.splitOn_ne_nil _ _)
  · by_cases hr' : (47 :: bs' : Path) = rootPath
    · rw [if_neg hr, if_pos hr'] at h
      exact absurd h (List.splitOn_ne_nil _ _)
    · rw [if_neg hr, if_neg hr'] at h
      have hjoin := congrArg (List.intercalate [47]) h
      rw [List.intercalate_splitOn, List.intercalate_splitOn] at hjoin
      rw [hjoin]

section Make
variable {a : Args} {s s' t : St} {f g p r : ℤ} {e : DirEntry} {path : Path}

variable {D : Path} {name : List UInt8} {now : UInt64} {mode : UInt32} {out : Option (ℤ × St)}

theorem TreeOk.pfid (h : TreeOk a s) (hnew : NewName a s D name p) :
    ∃ t, fcfsGetPfid a s (joinPath D name) = some (p, t) ∧ Traced a D p s t := by
  obtain ⟨t, hfid, htr⟩ := fcfsGetFid_traced h.tree h.stat hnew.head hnew.dir.walk
  exact ⟨t, Option.bind_eq_some_iff.mpr ⟨_, parentPath_join hnew.head hnew.slash, hfid⟩, htr⟩

/-- **Making a file** under a path of which nothing else is cached. -/
theorem TreeOk.make (h : TreeOk a s) (hn : Numbered a) (hnew : NewName a s D name p)
    (hlen : name.length < 32) (hok : MakeOk a s (joinPath D name))
    (hforget : Forgotten s (devFreeFid a s.fsTable) (firstFree a s))
    (hstale : ∀ st, s.mapFid (joinPath D name) = some st → st.stDev = devFreeFid a s.fsTable)
    (hout : out = opsCreate a now s (joinPath D name) mode ∨ out = opsMkdir a now s (joinPath D name) mode)
    (hop : out = some (r, s')) : TreeOk a s' := by
  obtain ⟨t, hpar, htr⟩ := h.pfid hnew
  have ht := h.of_traced htr
  have hlook := htr.looked
  -- the run of the operation
  obtain ⟨-, p', t', name', m, r₁, u, r₂, hpar', hbase, hc, hi⟩ := opsMake_steps hout hop
  obtain ⟨rfl, rfl⟩ := Prod.mk.inj (Option.some.inj (hpar.symm.trans hpar'))
  obtain rfl := Option.some.inj ((baseName_join D hnew.slash).symm.trans hbase)
  have hmade := h.vol.made_of hn hok hforget hpar hlen hc hi
  have hv := hok.volOk hn h.vol hforget hpar hmade
  have hent := hok.entered hn hlook hmade hv
  have hname := nameStr_newEntry now (devFreeFid a s.fsTable) m hlen hnew.nul
  have hdir : Through (dirs a t.dev) 0 (components D) p := by
    rw [hlook.dev]
    exact hnew.dir
  have hnode := hent.node
  refine ⟨hv, hent.dirTree ht.tree ?_ ?_, ?_, fun q st g hhead hst hleads => ?_⟩
  · rw [hname]
    exact hnew.ne
  · rw [hname, hlook.dev]
    exact hnew.new
  · refine Once.add (hent.gained ht.tree) ht.once hdir.reach ?_ ?_ fun g _ => ?_
    · show fidOf _ ≠ 0
      rw [hnode]
      exact hok.fid.ne'
    · show ¬ Live t.fsTable (fidOf _)
      rw [hnode]
      exact fun hl => hent.dead (Or.inr hl)
    · show Live s'.fsTable g ↔ g = fidOf _ ∨ Live t.fsTable g
      rw [hnode]
      refine ⟨fun hl => or_iff_not_imp_left.mpr fun hne => ⟨hl.nonneg, hl.lt, ?_⟩, ?_⟩
      · rw [← hmade.links g hne]
        exact hl.lnk
      · rintro (rfl | hl)
        · exact hent.self
        · exact hent.live g hl
  · rw [hent.ids] at hst
    rcases hent.leads_old ht.tree hleads with hold | ⟨rfl, ns, hcomp, hns⟩
    · exact ht.stat q st g hhead hst hold
    · -- the only other path is the new one
      have hq : q = joinPath D name := by
        refine components_inj hhead (head_join hnew.head) ?_
        rw [hcomp, hname, ht.once.through_inj hns hdir, components_join hnew.head hnew.slash hnew.ne]
      rw [hq] at hst
      rw [htr.longer _ (length_join hnew.ne)] at hst
      exact hstale st hst

end Make

/-! ### Removing a file -/

section Remove
variable {a : Args} {s s' t : St} {f g p r : ℤ} {path : Path}

theorem Removed.perm (h : Removed a f p s s') (ho : Once (dirs a s.dev) 0 (Live s.fsTable))
    (hp : Reach (dirs a s.dev) 0 p) (hf : f ∈ (dirs a s.dev).nodes p) :
    (dirOf a s'.dev p).Perm ((dirOf a s.dev p).filter fun e => fidOf e ≠ f) := by
  obtain ⟨x, hx, hxf⟩ := List.mem_map.mp hf
  have hnd : ((dirOf a s.dev p).map fidOf).Nodup := ho.nodup p hp
  rw [h.dir]
  cases hdrop : dropEntry (dirOf a s.dev p) f with
  | none => exact absurd hxf (dropEntry_none.mp hdrop x hx)
  | some ent =>
    obtain ⟨e, -, hef, hperm⟩ := dropEntry_perm hdrop
    exact perm_filter_of_cons hperm hef (List.nodup_iff_count_le_one.mp hnd f)

theorem Removed.nodup (h : Removed a f p s s') (ho : Once (dirs a s.dev) 0 (Live s.fsTable))
    (hp : Reach (dirs a s.dev) 0 p) (hf : f ∈ (dirs a s.dev).nodes p) {K : Type} {k : DirEntry → K}
    (hnd : ((dirOf a s.dev p).map k).Nodup) : ((dirOf a s'.dev p).map k).Nodup := by
  have hsub : ((dirOf a s.dev p).filter fun e => fidOf e ≠ f).Sublist (dirOf a s.dev p) :=
    List.filter_sublist
  exact ((h.perm ho hp hf).map k).nodup_iff.mpr (hnd.sublist (hsub.map k))

/-- **The directory loses the entry**, and no other directory that can be reached changes. -/
theorem Removed.taken (h : Removed a f p s s') (ht : TreeOk a s) (hp : Reach (dirs a s.dev) 0 p)
    (hf : f ∈ (dirs a s.dev).nodes p)
    (hbytes : ∀ g : ℤ, 0 ≤ g → g < tableLen → g ≠ f → g ≠ p → fileBytes a s'.dev g = fileBytes a s.dev g) :
    Taken (dirs a s.dev) (dirOf a s'.dev) 0 p f := by
  refine ⟨hp, hf, fun x => ?_, h.nodup ht.once hp hf (ht.once.nodup p hp), ?_⟩
  · rw [(h.perm ht.once hp hf).mem_iff, List.mem_filter, decide_eq_true_iff]
    rfl
  · rintro g ⟨ns, hg⟩ hgp hgf
    obtain ⟨hg0, hgt⟩ := fid_range (ht.tree.live hg)
    show dirOf a s'.dev g = dirOf a s.dev g
    rw [dirOf_eq, hbytes g hg0 hgt hgf hgp, ← dirOf_eq]

theorem Removed.live (h : Removed a f p s s') (hlnk : (s.fsTable.entrs f).lnkCnt = 1) :
    Live s'.fsTable g ↔ g ≠ f ∧ Live s.fsTable g := by
  by_cases hgf : g = f
  · refine ⟨fun hl => absurd ?_ hl.lnk, fun hl => absurd hgf hl.1⟩
    rw [hgf, h.entry]
    unfold unlinked
    rw [hlnk]
    rfl
  · rw [live_congr (h.others g hgf)]
    exact ⟨fun hl => ⟨hgf, hl⟩, And.right⟩

theorem Looked.leads (h : Looked a s t) (hleads : Leads a s path f) : Leads a t path f := by
  unfold Leads
  rw [h.dev]
  exact hleads

theorem TreeOk.remove_root (h : TreeOk a s) (hroot : path = rootPath)
    (hop : opsUnlink a s path = some (r, s')) : TreeOk a s' := by
  have hhead : path.head? = some 47 := by rw [hroot]; rfl
  have hleads : Leads a s path 0 := by
    unfold Leads components
    rw [if_pos hroot]
    exact Walk.nil 0
  have hparent : parentPath path = some path := by
    rw [hroot]
    exact parentPath_root List.not_mem_nil
  obtain ⟨t, hfid, htr⟩ := fcfsGetFid_traced h.tree h.stat hhead hleads
  have ht := h.of_traced htr
  obtain ⟨u, hfidu, htru⟩ := fcfsGetFid_traced ht.tree ht.stat hhead (htr.looked.leads hleads)
  have hpar : fcfsGetPfid a t path = some (0, u) := Option.bind_eq_some_iff.mpr ⟨_, hparent, hfidu⟩
  have hrun : opsUnlink a s path = some (0, u) :=
    Option.bind_eq_some_iff.mpr ⟨_, hfid, Option.bind_eq_some_iff.mpr ⟨_, hpar, rfl⟩⟩
  obtain ⟨-, rfl⟩ := Prod.mk.inj (Option.some.inj (hop.symm.trans hrun))
  exact ht.of_traced htru

/-- **A file is taken out of its directory**, both of which have been looked up. -/
structure TakenOut (a : Args) (f p : ℤ) (s t s' : St) : Prop where
  looked : Looked a s t
  tree : TreeOk a t
  vol : VolOk a s'
  removed : Removed a f p t s'
  taken : Taken (dirs a t.dev) (dirOf a s'.dev) 0 p f

theorem TreeOk.unlink (h : TreeOk a s) (hn : Numbered a) (hhead : path.head? = some 47)
    (hroot : path ≠ rootPath) (hleads : Leads a s path f) :
    ∃ p t s', opsUnlink a s path = some (0, s') ∧ TakenOut a f p s t s' := by
  obtain ⟨D, name, rfl, hheadD, hslash, hne⟩ := exists_join h.tree hhead hroot hleads
  have hwalk := hleads
  unfold Leads at hwalk
  rw [components_join hheadD hslash hne] at hwalk
  obtain ⟨p, hp, x, hx, rfl, rfl⟩ := walk_snoc.mp hwalk
  obtain ⟨t, hfid, htr⟩ := fcfsGetFid_traced h.tree h.stat hhead hleads
  have ht := h.of_traced htr
  obtain ⟨u, hfidu, htru⟩ := fcfsGetFid_traced ht.tree ht.stat hheadD (htr.looked.leads hp.walk)
  have hpar : fcfsGetPfid a t (joinPath D x.nameStr) = some (p, u) :=
    Option.bind_eq_some_iff.mpr ⟨_, parentPath_join hheadD hslash, hfidu⟩
  have hu := ht.of_traced htru
  have hlook := htr.looked.trans htru.looked
  rw [← hlook.dev] at hp hx
  have hmem : fidOf x ∈ (dirs a u.dev).nodes p := List.mem_map_of_mem hx
  obtain ⟨hf0, hlive⟩ := hu.once.named p hp.reach _ hmem
  have hpf : p ≠ fidOf x := fun heq => hu.once.not_self hp.reach (heq ▸ hmem)
  obtain ⟨s', hrm, hv, hrem, hbytes⟩ := hu.vol.rmFile_others hn.clus hlive hf0 (hu.tree.live hp) hpf
  refine ⟨p, u, s', ?_, hlook, hu, hv, hrem, hrem.taken hu hp.reach hmem hbytes⟩
  refine Option.bind_eq_some_iff.mpr ⟨_, hfid, ?_⟩
  refine Option.bind_eq_some_iff.mpr ⟨_, hpar, ?_⟩
  exact Option.bind_eq_some_iff.mpr ⟨_, hrm, rfl⟩

theorem TakenOut.lnk (h : TakenOut a f p s t s') : (t.fsTable.entrs f).lnkCnt = 1 := by
  obtain ⟨hf0, hlive⟩ := h.tree.once.named p h.taken.reach f h.taken.named
  exact h.tree.vol.lnk f hlive hf0

/-- **Taking out a file without entries** keeps the tree in order. -/
theorem TakenOut.treeOk (h : TakenOut a f p s t s')
    (hleaf : Reach (dirs a t.dev) 0 f → dirOf a t.dev f = []) : TreeOk a s' := by
  have ht := h.tree
  have hrem := h.removed
  have htk := h.taken
  have hthrough : ∀ {ns g}, Through (dirs a s'.dev) 0 ns g → Through (dirs a t.dev) 0 ns g ∧ g ≠ f :=
    fun hg => htk.through_old ht.once hg
  have hmem : ∀ {ns g x}, Through (dirs a s'.dev) 0 ns g → x ∈ dirOf a s'.dev g →
      x ∈ dirOf a t.dev g ∧ fidOf x ≠ f := fun hg hx =>
    (htk.mem ht.once (hthrough hg).1.reach (hthrough hg).2).mp hx
  refine ⟨h.vol, ⟨h.vol.sound, fun ns g hg => ?_, fun ns g hg e he => ?_, fun ns g hg e he => ?_⟩,
    ht.once.drop htk hleaf fun g _ => hrem.live h.lnk, fun q st g hhead hst hleads => ?_⟩
  · obtain ⟨hold, hgf⟩ := hthrough hg
    by_cases hgp : g = p
    · rw [hgp] at hold ⊢
      exact hrem.nodup ht.once htk.reach htk.named (ht.tree.nodup ns p hold)
    · have hsame : dirOf a s'.dev g = dirOf a t.dev g := htk.others g hold.reach hgp hgf
      rw [hsame]
      exact ht.tree.nodup ns g hold
  · exact ht.tree.named ns g (hthrough hg).1 e (hmem hg he).1
  · exact (hrem.live h.lnk).mpr ⟨(hmem hg he).2, ht.tree.files ns g (hthrough hg).1 e (hmem hg he).1⟩
  · rw [hrem.ids] at hst
    exact ht.stat q st g hhead hst (htk.walk ht.once hleads).1

/-- **Taking out a directory with entries** leaves files that are in no directory. -/
theorem TakenOut.not_namespaceOk (h : TakenOut a f p s t s') (hdir : Reach (dirs a t.dev) 0 f)
    (hent : dirOf a t.dev f ≠ []) : ¬ NamespaceOk a s' := by
  intro hok
  obtain ⟨x, hx⟩ := List.exists_mem_of_ne_nil _ hent
  have ho := h.tree.once
  have hmem : fidOf x ∈ (dirs a t.dev).nodes f := List.mem_map_of_mem hx
  obtain ⟨hx0, hlive⟩ := ho.named f hdir _ hmem
  have hxf : fidOf x ≠ f := fun heq => ho.not_self hdir (heq ▸ hmem)
  obtain ⟨g, hg, hcount, -⟩ := hok.once _ hx0 ((h.removed.live h.lnk).mpr ⟨hxf, hlive⟩)
  have hin : fidOf x ∈ (dirOf a s'.dev g).map fidOf :=
    List.count_pos_iff.mp (by rw [hcount]; exact Nat.one_pos)
  exact h.taken.lost ho hdir hmem hg hin

/-- **`ops_unlink` and `ops_rmdir`** of a file that is no directory with entries. -/
theorem TreeOk.remove (h : TreeOk a s) (hn : Numbered a) (hhead : path.head? = some 47)
    (hleads : Leads a s path f)
    (hempty : ∀ g, g ≠ 0 → Through (dirs a s.dev) 0 (components path) g → dirOf a s.dev g = [])
    (hop : opsUnlink a s path = some (r, s')) : TreeOk a s' := by
  by_cases hroot : path = rootPath
  · exact h.remove_root hroot hop
  · obtain ⟨p, t, v, hrun, hout⟩ := h.unlink hn hhead hroot hleads
    obtain ⟨-, rfl⟩ := Prod.mk.inj (Option.some.inj (hop.symm.trans hrun))
    have ho := hout.tree.once
    rw [← hout.looked.dev] at hempty
    refine hout.treeOk fun hf => hempty f (ho.named p hout.taken.reach f hout.taken.named).1 ?_
    exact ho.through_of_walk (hout.looked.leads hleads) hf

end Remove

/-! ### Writing to a file -/

section Write
variable {a : Args} {s s' t : St} {f g r fh : ℤ} {path : Path} {data : Buf} {size offset : ℕ}

theorem TreeOk.writeFid (h : TreeOk a s) (hhead : path.head? = some 47) (hleads : Leads a s path f)
    (hfh : fh = 0 ∨ fh = f) : ∃ t, writeFid a s path fh = some (f, t) ∧ TreeOk a t ∧ Looked a s t := by
  by_cases h0 : fh = 0
  · obtain ⟨t, hfid, htr⟩ := fcfsGetFid_traced h.tree h.stat hhead hleads
    have hopen : opsOpen a s path = some (0, f, t) := Option.bind_eq_some_iff.mpr ⟨_, hfid, rfl⟩
    refine ⟨t, ?_, h.of_traced htr, htr.looked⟩
    unfold Fcfs.writeFid
    rw [if_pos h0]
    exact Option.bind_eq_some_iff.mpr ⟨_, hopen, rfl⟩
  · refine ⟨s, ?_, h, Looked.refl a s⟩
    unfold Fcfs.writeFid
    rw [if_neg h0, hfh.resolve_left h0]

/-- **`ops_write`** to a file that is no directory. -/
theorem TreeOk.write (h : TreeOk a s) (hn : Numbered a) (hhead : path.head? = some 47)
    (hleads : Leads a s path f) (hfh : fh = 0 ∨ fh = f) (hok : WriteOk a s path size offset fh)
    (hfile : ∀ g, ¬ Through (dirs a s.dev) 0 (components path) g)
    (hop : opsWrite a s path data size offset fh = some (r, s')) : TreeOk a s' := by
  obtain ⟨t, hfid, ht, hlook⟩ := h.writeFid hhead hleads hfh
  obtain ⟨hf, hfits⟩ := hok.file f t hfid
  rw [← hlook.table] at hf
  obtain ⟨h0, hft⟩ := fid_range hf
  obtain ⟨v, hw, hv, hwritten, -⟩ := ht.vol.write hn.clus hf hfid data hok.int hfits
  obtain ⟨-, rfl⟩ := Prod.mk.inj (Option.some.inj (hop.symm.trans hw))
  obtain ⟨cl, -, hfok⟩ := ht.vol.files f hf
  have hon := hwritten.onFile
  rw [← hlook.dev] at hfile
  have hnot : ∀ g, Reach (dirs a t.dev) 0 g → g ≠ f := by
    rintro g hg rfl
    exact hfile g (ht.once.through_of_walk (hlook.leads hleads) hg)
  refine ht.congr hv (fun g hg => ?_) (fun g _ => ?_) hon.ids
  · obtain ⟨ns, hthrough⟩ := hg
    obtain ⟨hg0, hgt⟩ := fid_range (ht.tree.live hthrough)
    rw [dirOf_eq, hon.fileBytes h0 hft (hnot g hthrough.reach) hg0 hgt hfok.owned, ← dirOf_eq]
  · by_cases hgf : g = f
    · rw [hgf]
      exact ⟨fun hl => ⟨h0, hft, by rw [← hwritten.lnk]; exact hl.lnk⟩,
        fun hl => ⟨h0, hft, by rw [hwritten.lnk]; exact hl.lnk⟩⟩
    · exact live_congr (hon.others g hgf)

end Write

/-! ### Runs -/

/-- **A request on a path that exists**, or for a new name of less than 32 bytes in a directory that does. -/
def FsOp.Existing (a : Args) (s : St) : FsOp → Prop
  | create _ path _ => ∃ D name p, path = joinPath D name ∧ NewName a s D name p ∧ name.length < 32
  | mkdir _ path _ => ∃ D name p, path = joinPath D name ∧ NewName a s D name p ∧ name.length < 32
  | write path _ _ _ fh => path.head? = some 47 ∧ ∃ f, Leads a s path f ∧ (fh = 0 ∨ fh = f)
  | unlink path => path.head? = some 47 ∧ ∃ f, Leads a s path f
  | rmdir path => path.head? = some 47 ∧ ∃ f, Leads a s path f
  | _ => False

/-- **Nothing runs out**: there is an identifier and a block for what is made, its directory has room, and
there are blocks for what is written. -/
def FsOp.HasRoom (a : Args) (s : St) : FsOp → Prop
  | create _ path _ => MakeOk a s path
  | mkdir _ path _ => MakeOk a s path
  | write path _ size offset fh => WriteOk a s path size offset fh
  | _ => True

/-- The caches hold nothing of the last file with the identifier that is given out, and the stat cache no
other file under the path. -/
def FreshIn (a : Args) (s : St) (path : Path) : Prop :=
  Forgotten s (devFreeFid a s.fsTable) (firstFree a s) ∧
    ∀ st, s.mapFid path = some st → st.stDev = devFreeFid a s.fsTable

/-- A path does not lead to a directory with entries other than the root. -/
def NoEntries (a : Args) (s : St) (path : Path) : Prop :=
  ∀ g, g ≠ 0 → Through (dirs a s.dev) 0 (components path) g → dirOf a s.dev g = []

/-- **The request keeps the tree**: what is made is new to the caches, what is removed is no directory with
entries, and what is written to is no directory. -/
def FsOp.KeepsTree (a : Args) (s : St) : FsOp → Prop
  | create _ path _ => FreshIn a s path
  | mkdir _ path _ => FreshIn a s path
  | write path _ _ _ _ => ∀ g, ¬ Through (dirs a s.dev) 0 (components path) g
  | unlink path => NoEntries a s path
  | rmdir path => NoEntries a s path
  | _ => True

/-- A step of a run that asks for what exists, with room for it. -/
def AskStep (a : Args) (s s' : St) : Prop :=
  ∃ o : FsOp, o.Existing a s ∧ o.HasRoom a s ∧ o.run a s = some s'

/-- A step that keeps the tree besides. -/
def TreeStep (a : Args) (s s' : St) : Prop :=
  ∃ o : FsOp, o.Existing a s ∧ o.HasRoom a s ∧ o.KeepsTree a s ∧ o.run a s = some s'

section Run
variable {a : Args} {s s' : St}

/-- **Every such request** leaves a tree that names every file once. -/
theorem TreeOk.step (h : TreeOk a s) (hn : Numbered a) (o : FsOp) (hask : o.Existing a s)
    (hroom : o.HasRoom a s) (hkeep : o.KeepsTree a s) (hrun : o.run a s = some s') : TreeOk a s' := by
  cases o with
  | create now path mode =>
    obtain ⟨D, name, p, rfl, hnew, hlen⟩ := hask
    obtain ⟨⟨r, t⟩, hop, rfl⟩ := Option.map_eq_some_iff.mp hrun
    exact h.make hn hnew hlen hroom hkeep.1 hkeep.2 (Or.inl rfl) hop
  | mkdir now path mode =>
    obtain ⟨D, name, p, rfl, hnew, hlen⟩ := hask
    obtain ⟨⟨r, t⟩, hop, rfl⟩ := Option.map_eq_some_iff.mp hrun
    exact h.make hn hnew hlen hroom hkeep.1 hkeep.2 (Or.inr rfl) hop
  | write path data size offset fh =>
    obtain ⟨hhead, f, hleads, hfh⟩ := hask
    obtain ⟨⟨r, t⟩, hop, rfl⟩ := Option.map_eq_some_iff.mp hrun
    exact h.write hn hhead hleads hfh hroom hkeep hop
  | unlink path =>
    obtain ⟨hhead, f, hleads⟩ := hask
    obtain ⟨⟨r, t⟩, hop, rfl⟩ := Option.map_eq_some_iff.mp hrun
    exact h.remove hn hhead hleads hkeep hop
  | rmdir path =>
    obtain ⟨hhead, f, hleads⟩ := hask
    obtain ⟨⟨r, t⟩, hop, rfl⟩ := Option.map_eq_some_iff.mp hrun
    exact h.remove hn hhead hleads hkeep ((opsRmdir_eq a s path).symm.trans hop)
  | opn => exact hask.elim
  | read => exact hask.elim
  | getattr => exact hask.elim
  | release => exact hask.elim
  | releasedir => exact hask.elim

end Run

/-- **In every run from a formatted volume whose requests keep the tree** the namespace is in order. -/
theorem namespaceOk_of_run {a : Args} {s₀ s : St} (hfresh : Formatted a s₀) (hn : Numbered a)
    (hrun : Relation.ReflTransGen (TreeStep a) s₀ s) : NamespaceOk a s := by
  have htree : TreeOk a s := by
    refine Lib.Runs.inv_of_run (fun t u hstep ht => ?_) hrun hfresh.treeOk
    obtain ⟨o, hask, hroom, hkeep, hop⟩ := hstep
    exact ht.step hn o hask hroom hkeep hop
  exact htree.namespaceOk

/-! ### Samples -/

/-- The request for a directory. -/
def makeDir (path : Path) : FsOp := .mkdir 0 path 0

/-- The entry of the directory. -/
def dirEntry (f : ℤ) (name : List UInt8) : DirEntry := newEntry 0 f name (0o40000 ||| 0)

/-- A volume with an empty directory `/a`, and nothing cached of paths. -/
structure DirMade (a : Args) (s : St) : Prop where
  tree : TreeOk a s
  dir : Through (dirs a s.dev) 0 [[97]] 1
  empty : dirOf a s.dev 1 = []
  nodes : nodesAt a (tab a s.dev) 1 = [⟨1, 1, 0⟩]
  fid : devFreeFid a s.fsTable = 2
  blk : freeBlks a (tab a s.dev) ≠ []
  ids : ∀ q, s.mapFid q = none
  seq : s.mapSeq 2 = none
  clrs : s.clrsCache.fid ≠ 2

section Samples
variable {a : Args} {s s' t : St} {D : Path} {name : List UInt8} {p : ℤ}

/-- A directory is made under a new name when nothing is cached of paths. -/
theorem NewName.mkdir (hnew : NewName a s D name p) (h : TreeOk a s) (hn : Numbered a)
    (hlen : name.length < 32) (hok : MakeOk a s (joinPath D name))
    (hforget : Forgotten s (devFreeFid a s.fsTable) (firstFree a s)) (hids : ∀ q, s.mapFid q = none) :
    ∃ t s', fcfsGetPfid a s (joinPath D name) = some (p, t) ∧
      opsMkdir a 0 s (joinPath D name) 0 = some (0, s') ∧ TreeStep a s s' ∧
      Made a (devFreeFid a s.fsTable) p (firstFree a s) (dirEntry (devFreeFid a s.fsTable) name) t s' ∧
      Grew a (devFreeFid a s.fsTable) p (joinPath D name) (dirEntry (devFreeFid a s.fsTable) name) s t s' := by
  have hstat : StatOk a s := fun q st _ hst => by
    rw [hids] at hst
    cases hst
  obtain ⟨t, hpar, hres⟩ := hnew.pfid h.tree hstat
  obtain ⟨s', hop, hmade⟩ := h.vol.mkdir hn hok (hforget.first h.vol.mounted hok.first_mem) hpar
    (baseName_join D hnew.slash) hlen 0 0
  refine ⟨t, s', hpar, hop, ⟨makeDir (joinPath D name), ⟨D, name, p, rfl, hnew, hlen⟩, hok,
    ⟨hforget, fun st hst => ?_⟩, Option.map_eq_some_iff.mpr ⟨_, hop, rfl⟩⟩, hmade,
    hnew.grew h.vol hn h.tree hok hforget hlen hpar hres hmade⟩
  rw [hids] at hst
  cases hst

/-- **The first directory of a formatted volume.** -/
theorem Formatted.mkdir (h : Formatted a s) (hn : Numbered a) (hclu : 2 ≤ a.cluCnt)
    (htbl : 3 ≤ a.fsHead.tblCnt.toNat) : ∃ s', TreeStep a s s' ∧ DirMade a s' := by
  have hnew : NewName a s rootPath [97] 0 := by
    refine ⟨rfl, Through.nil 0, List.cons_ne_nil _ _, by decide, by decide, ?_⟩
    rw [h.dirOf_root]
    exact List.not_mem_nil
  have hok : MakeOk a s (joinPath rootPath [97]) := h.makeOk hclu (by omega) (by decide)
  have hforget := h.forgotten (by omega)
  have hfid := h.freeFid (by omega)
  obtain ⟨rest, hrest⟩ := freeBlks_one (h.allFree 1 0) hclu
  obtain ⟨hfirst, -⟩ := firstFree_one (h.allFree 1 0) hclu
  obtain ⟨t, s', hpar, hop, hstep, hmade, hgrew⟩ :=
    hnew.mkdir h.treeOk hn (by decide) hok hforget h.ids
  have htree : TreeOk a s' :=
    h.treeOk.make hn hnew (by decide) hok hforget (fun st hst => by rw [h.ids] at hst; cases hst)
      (Or.inr rfl) hop
  have hroot : fcfsGetPfid a s (joinPath rootPath [97]) = some (0, s) :=
    fcfsGetPfid_root (by decide) (h.ids _)
  obtain ⟨-, rfl⟩ := Prod.mk.inj (Option.some.inj (hroot.symm.trans hpar))
  rw [hfid, hfirst] at hmade
  rw [hfid] at hgrew
  have hent := hgrew.entered
  have hno := noGrowth_root h.mounted.geo.le_lblkSz (h.allFree 0) h.dirOf_root
  have htaken := freeBlks_taken (x := ⟨u32 1, 0⟩) hrest (by decide) (hmade.tabs hno)
  -- the caches know the root and the new directory
  obtain ⟨-, p, t, name, m, r₁, u, r₂, hp, -, hcreate, hinit⟩ := opsMake_steps (Or.inr rfl) hop
  obtain ⟨rfl, rfl⟩ := Prod.mk.inj (Option.some.inj (hroot.symm.trans hp))
  obtain ⟨hids, hseqs, hclrs⟩ := caches_make hcreate hinit
  rw [hfid] at hseqs hclrs
  refine ⟨s', hstep, htree, ?_, hent.new, hmade.newborn.nodes, ?_, ?_, fun q => by rw [hids]; exact h.ids q,
    (hseqs 2 (by decide) (by decide)).trans (h.seqs 2), ?_⟩
  · have hin : dirEntry 1 [97] ∈ dirOf a s'.dev 0 := by
      rw [hent.dir]
      exact List.mem_append_right _ (List.mem_singleton_self _)
    have hdir : IsDir (dirEntry 1 [97]) := by decide
    exact Through.cons (D := dirs a s'.dev) hin hdir (Through.nil 1)
  · have htwo : (s'.fsTable.entrs 2).lnkCnt = 0 := by
      rw [hmade.links 2 (by decide), (h.entrs 2 (by decide) (by decide)).lnk]
    refine freeFidFrom_eq htwo (by omega) (by omega) fun j hj hlt => ?_
    obtain rfl : j = 1 := by omega
    rw [hmade.newborn.lnk]
    decide
  · have hlen := length_freeBlks (a := a) h.allFree
    rw [hrest, List.length_cons] at hlen
    rw [htaken]
    rintro rfl
    rw [List.length_nil] at hlen
    omega
  · rcases hclrs with heq | heq | heq
    · rw [heq, h.fid]
      decide
    · rw [heq]
      decide
    · rw [heq]
      decide

/-- **A directory in it.** -/
theorem DirMade.mkdir (h : DirMade a s) (hn : Numbered a) : ∃ s', TreeStep a s s' ∧ TreeOk a s' ∧
    Through (dirs a s'.dev) 0 [[97]] 1 ∧ dirOf a s'.dev 1 ≠ [] := by
  have hv := h.tree.vol
  have hnew : NewName a s (rootName 97) [98] 1 := by
    refine ⟨rfl, h.dir, List.cons_ne_nil _ _, by decide, by decide, ?_⟩
    rw [h.empty]
    exact List.not_mem_nil
  have hlive : (1 : ℤ) = 0 ∨ Live s.fsTable 1 := h.tree.tree.live h.dir
  obtain ⟨rest, hrest⟩ := firstFree_cons h.blk
  have hok : MakeOk a s (joinPath (rootName 97) [98]) := by
    refine ⟨by rw [h.fid]; decide, h.blk, fun q u hq => ?_⟩
    obtain ⟨t, hpar, -⟩ := h.tree.pfid hnew
    obtain ⟨rfl, -⟩ := Prod.mk.inj (Option.some.inj (hpar.symm.trans hq))
    refine ⟨hlive, fun v hal => fits_of_le ?_⟩
    have hon := hal.onFile_self (by rw [hrest]; exact List.mem_cons_self)
    rw [h.fid] at hon
    rw [h.empty, nodesAt_other hon (by decide) (by decide) (by decide) (by decide) (by decide), h.nodes,
      List.length_nil, dirNeed_one hv.mounted.geo.le_lblkSz]
    decide
  have hforget : Forgotten s (devFreeFid a s.fsTable) (firstFree a s) := by
    rw [h.fid]
    refine ⟨fun heq => absurd heq h.clrs, fun l hl => ?_⟩
    rw [h.seq] at hl
    cases hl
  obtain ⟨t, s', -, hop, hstep, -, hgrew⟩ := hnew.mkdir h.tree hn (by decide) hok hforget h.ids
  have htree : TreeOk a s' :=
    h.tree.make hn hnew (by decide) hok hforget (fun st hst => by rw [h.ids] at hst; cases hst)
      (Or.inr rfl) hop
  have hlook := hgrew.looked
  have hent := hgrew.entered
  refine ⟨s', hstep, htree, hent.through (h.tree.tree.of_looked hlook) (by rw [hlook.dev]; exact h.dir), ?_⟩
  rw [hent.dir]
  exact List.concat_ne_nil _ _

end Samples

theorem TreeStep.ask {a : Args} {s s' : St} (h : TreeStep a s s') : AskStep a s s' := by
  obtain ⟨o, hask, hroom, -, hop⟩ := h
  exact ⟨o, hask, hroom, hop⟩

/-- On a volume of seven clusters: a directory is removed that has a directory in it. -/
theorem not_namespaceOk_of_run : ¬ ∀ (a : Args) (s₀ s : St), Formatted a s₀ → Numbered a →
    Relation.ReflTransGen (AskStep a) s₀ s → NamespaceOk a s := by
  intro h
  obtain ⟨s, hfirst, hmade⟩ := formatted_sevenFresh.mkdir numbered_seven (by decide) (by decide)
  obtain ⟨t, hsecond, htree, hdir, hent⟩ := hmade.mkdir numbered_seven
  have hleads : Leads sevenArgs t (rootName 97) 1 := hdir.walk
  obtain ⟨p, u, s', hop, hout⟩ := htree.unlink numbered_seven rfl (by decide) hleads
  have hlast : AskStep sevenArgs t s' :=
    ⟨.rmdir (rootName 97), ⟨rfl, 1, hleads⟩, trivial, Option.map_eq_some_iff.mpr ⟨_, hop, rfl⟩⟩
  have hrun : Relation.ReflTransGen (AskStep sevenArgs) sevenFresh s' :=
    ((Relation.ReflTransGen.single hfirst.ask).tail hsecond.ask).tail hlast
  rw [← hout.looked.dev] at hdir hent
  exact hout.not_namespaceOk hdir.reach hent (h _ _ s' formatted_sevenFresh numbered_seven hrun)

/-- A directory is made, and another in it. -/
theorem namespaceOk_seven : ∃ s, Relation.ReflTransGen (TreeStep sevenArgs) sevenFresh s ∧
    dirOf sevenArgs s.dev 1 ≠ [] ∧ NamespaceOk sevenArgs s := by
  obtain ⟨s, hfirst, hmade⟩ := formatted_sevenFresh.mkdir numbered_seven (by decide) (by decide)
  obtain ⟨t, hsecond, -, -, hent⟩ := hmade.mkdir numbered_seven
  have hrun := (Relation.ReflTransGen.single hfirst).tail hsecond
  exact ⟨t, hrun, hent, namespaceOk_of_run formatted_sevenFresh numbered_seven hrun⟩

end Fcfs.Vol
