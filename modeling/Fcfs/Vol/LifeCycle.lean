import Fcfs.Fmtr.Volume
import Fcfs.Vol.Remount

/-! # From the formatter through any number of mounts

A run of calls leaves header, bitmap and table on the device as they are in memory (`Synced.replies`), so the
next mount finds the volume that was there, exactly when no cluster behind the last whole byte of the bitmap
is full (`mounts_after_run`). What the formatter makes is a volume without files, and session after session
the driver answers as one tree of files does that outlives them all (`serves_sessions`). -/

namespace Fcfs.Vol

open Lib.Bytes Lib.Walks Lib.Tree Persist Fmtr.Volume

/-! ### Calls that make sense can be served -/

section Call
variable {a : Args} {s t : St} {path : Path}

theorem TreeOk.removeOk (h : TreeOk a s) (hhead : path.head? = some 47)
    (hx : (treeOf h).find (components path) ≠ none) : RemoveOk a s path := by
  obtain ⟨x, hx⟩ := Option.ne_none_iff_exists'.mp hx
  have hleads : Leads a s path x.id := treeOf_walk h hx
  obtain ⟨t, hfid, htr⟩ := fcfsGetFid_traced h.tree h.stat hhead hleads
  have ht := h.of_traced htr
  intro f t' p u hfid' hpar
  obtain ⟨rfl, rfl⟩ := Prod.mk.inj (Option.some.inj (hfid.symm.trans hfid'))
  by_cases hroot : path = rootPath
  · have hzero : Leads a s path 0 := by
      rw [hroot]
      exact Walk.nil 0
    exact Or.inl (Walk.unique h.distinct hleads hzero)
  · obtain ⟨D, q, e, rfl, hheadD, hslash, -, hq, he, heq⟩ := h.entry hhead hroot hleads
    obtain ⟨v, hfidv, -⟩ := fcfsGetFid_traced ht.tree ht.stat hheadD (htr.looked.leads hq.walk)
    have hpar' : fcfsGetPfid a t (joinPath D e.nameStr) = some (q, v) :=
      Option.bind_eq_some_iff.mpr ⟨_, parentPath_join hheadD hslash, hfidv⟩
    obtain ⟨rfl, -⟩ := Prod.mk.inj (Option.some.inj (hpar'.symm.trans hpar))
    have hmem : x.id ∈ (dirs a s.dev).nodes q := heq ▸ List.mem_map_of_mem he
    obtain ⟨-, hlive⟩ := h.once.named q hq.reach _ hmem
    refine Or.inr ⟨hlive, ?_, fun hqx => h.once.not_self hq.reach (hqx ▸ hmem)⟩
    exact h.tree.live hq

theorem TreeOk.servable (h : TreeOk a s) {c : Call} (hask : Sensible (treeOf h) c) (hroom : RoomFor a s c)
    (hfresh : FreshFor a s c) : Servable a s c := by
  cases c with
  | mkdir now path mode => exact ⟨hroom, hfresh.1⟩
  | create now path mode => exact ⟨hroom, hfresh.1⟩
  | unlink path => exact h.removeOk hask.1 hask.2.1
  | rmdir path => exact h.removeOk hask.1 hask.2.1
  | write path data size offset fh => exact hroom
  | _ => trivial

end Call

/-! ### What a run leaves on the device -/

/-- Every call of a run can be served. -/
def ServableAll (a : Args) : List Call → St → Prop
  | [], _ => True
  | c :: cs, s => Servable a s c ∧ ∀ r t, c.run a s = some (r, t) → ServableAll a cs t

section Run
variable {a : Args} (hn : Numbered a)
include hn

/-- **A run leaves the metadata on the device as it is in memory.** The induction is on the calls. -/
theorem Synced.replies : ∀ (cs : List Call) {s t : St} {rs : List Reply}, VolOk a s → Synced a s →
    ServableAll a cs s → replies a cs s = some (rs, t) → VolOk a t ∧ Synced a t
  | [], s, t, rs, hv, hs, _, hrun => by
    obtain ⟨-, rfl⟩ := Prod.mk.inj (Option.some.inj hrun)
    exact ⟨hv, hs⟩
  | c :: cs, s, t, rs, hv, hs, hok, hrun => by
    obtain ⟨hc, hrest⟩ := hok
    obtain ⟨⟨r, u⟩, hcall, hrun⟩ := Option.bind_eq_some_iff.mp hrun
    obtain ⟨⟨rs', v⟩, hcalls, heq⟩ := Option.bind_eq_some_iff.mp hrun
    obtain ⟨-, rfl⟩ := Prod.mk.inj (Option.some.inj heq)
    exact Synced.replies cs (hv.call hn hc hcall) (hs.call hv hn hc hcall) (hrest r u hcall) hcalls

theorem Served.servableAll : ∀ (cs : List Call) {s : St}, TreeOk a s → Served a cs s → ServableAll a cs s
  | [], _, _, _ => trivial
  | c :: cs, s, h, hok => by
    obtain ⟨hask, hroom, hfresh, hrest⟩ := hok
    refine ⟨h.servable (hask h) hroom hfresh, fun r t hrun => ?_⟩
    obtain ⟨r', t', hrun', ht, -⟩ := h.call hn c (hask h) hroom hfresh
    obtain ⟨rfl, rfl⟩ := Prod.mk.inj (Option.some.inj (hrun.symm.trans hrun'))
    exact Served.servableAll cs ht (hrest r t hrun)

/-- **The device can be taken away after any run.** The next mount, in any process and over any memory, reads
in the table and the bits that are written, and the volume it finds is in order exactly when no cluster behind
the last whole byte of the bitmap is full. -/
theorem mounts_after_run (hr : Regions a.fsHead) {cs : List Call} {s t : St} {rs : List Reply} (hv : VolOk a s)
    (hs : Synced a s) (hcs : ServableAll a cs s) (hrun : replies a cs s = some (rs, t)) (junk : Buf)
    (uid gid : UInt32) :
    ∃ u, opsInit a.ciph junk uid gid a.fsHead.phyBlkSz.toNat (opsDestroy t) = some (remounted a junk uid gid, u) ∧
      ReadIn a junk t u ∧ (VolOk (remounted a junk uid gid) u ↔ TailClear a t) := by
  obtain ⟨hvt, hst⟩ := Synced.replies hn cs hv hs hcs hrun
  obtain ⟨u, hop, -, hin⟩ := hst.mount junk uid gid hr
  refine ⟨u, hop, hin, fun hvu => ?_, fun htail => ?_⟩
  · exact hin.tailClear junk hr hvt (hvu.reopen a.junk a.uid a.gid)
  · exact ((hin.reopened junk hr htail).volOk hvt).reopen junk uid gid

end Run

theorem tailClear_eight (junk : Buf) (uid gid : UInt32) (s : St) :
    TailClear (remounted eightArgs junk uid gid) s := by
  have hclu : (remounted eightArgs junk uid gid).cluCnt = 8 := by
    show eightArgs.cluCnt = 8
    decide
  intro c hge hc
  rw [hclu] at hge hc
  omega

theorem numbered_eight : Numbered eightArgs := ⟨by decide, by decide⟩

/-- A call that makes the first directory is a run of servable calls. -/
theorem Formatted.mkdir_run {a : Args} {s : St} (h : Formatted a s) (hn : Numbered a) (hclu : 2 ≤ a.cluCnt)
    (htbl : 2 ≤ a.fsHead.tblCnt.toNat) : ServableAll a [.mkdir 0 (rootName 97) 0] s ∧
      ∃ t, replies a [.mkdir 0 (rootName 97) 0] s = some ([.code 0], t) := by
  obtain ⟨-, hroom, hfresh, t, hcall, -⟩ := h.mkdir_call hn hclu htbl
  exact ⟨⟨⟨hroom, hfresh.1⟩, fun _ _ _ => trivial⟩, t, replies_cons hcall (replies_nil a t)⟩

/-- A directory is made, and the device taken away. -/
theorem mounts_after_run_eight : ∃ d t u,
    fmtrMain plainCipher (fun _ => 0) 512 4486 1 (fun _ => 0) (Fmtr.Mounts.blankDev (512 * 4486)) = some d ∧
      replies eightArgs [.mkdir 0 (rootName 97) 0] (formattedSt d 1) = some ([.code 0], t) ∧
        opsInit plainCipher (fun _ => 255) 1 1 512 (opsDestroy t) = some (remounted eightArgs (fun _ => 255) 1 1, u) ∧
          ReadIn eightArgs (fun _ => 255) t u ∧ VolOk (remounted eightArgs (fun _ => 255) 1 1) u := by
  obtain ⟨d, hmain⟩ := formats_blank.completes fun _ => 0
  have hform := formats_blank.formatted hmain
  obtain ⟨hcs, t, hrun⟩ := hform.mkdir_run numbered_eight (by decide) (by decide)
  obtain ⟨u, hop, hin, hiff⟩ := mounts_after_run numbered_eight formats_blank.regions hform.volOk
    (formats_blank.synced hmain) hcs hrun (fun _ => 255) 1 1
  exact ⟨d, t, u, hmain, hrun, hop, hin, hiff.mpr (tailClear_eight (fun _ => 0) 0 0 t)⟩

/-! ### The first mount -/

/-- A volume without files is fresh for the writers of cluster tables. -/
theorem Formatted.freshVol {a : Args} {s : St} (h : Formatted a s) : FreshVol a s :=
  ⟨h.bits, fun c h0 hc => ⟨_, h.mounted.devReadCtable_eq h0 hc, h.allFree c⟩⟩

/-- **The first mount of a formatted device** finds a volume without files, in any process and over any memory. -/
theorem formats_mounts {a : Args} {secSz secCnt : UInt32} {now : UInt64} {label : Fin 255 → UInt8} {d : Dev}
    (h : Formats a secSz secCnt now label d) (junk mem : Buf) (uid gid : UInt32) :
    ∃ d' s, fmtrMain a.ciph junk secSz secCnt now label d = some d' ∧
      opsInit a.ciph mem uid gid secSz.toNat d' = some (remounted a mem uid gid, s) ∧
        Formatted (remounted a mem uid gid) s := by
  obtain ⟨d', hmain⟩ := h.completes junk
  obtain ⟨s, hop, -, hform⟩ := (h.formatted hmain).mount mem uid gid (h.synced hmain) h.regions
  rw [h.sector_eq] at hop
  exact ⟨d', s, hmain, hop, hform⟩

/-! ### Sessions -/

/-- Every call makes sense for the tree it finds and has room, and once something has been removed, the
caches hold nothing of the last file with an identifier or a path. -/
def Asked (a : Args) : Prop → List Call → St → Prop
  | _, [], _ => True
  | removed, c :: cs, s => (∀ h : TreeOk a s, Sensible (treeOf h) c) ∧ RoomFor a s c ∧
      (removed → FreshFor a s c) ∧ ∀ r t, c.run a s = some (r, t) → Asked a (removed ∨ Removes c) cs t

theorem Asked.served {a : Args} (hn : Numbered a) : ∀ (cs : List Call) {removed : Prop} {s : St}, TreeOk a s →
    (¬ removed → Clear a s) → Asked a removed cs s → Served a cs s
  | [], _, _, _, _, _ => trivial
  | c :: cs, removed, s, h, hc, hok => by
    obtain ⟨hask, hroom, hfresh, hrest⟩ := hok
    have hfresh : FreshFor a s c := by
      by_cases hrem : removed
      · exact hfresh hrem
      · exact (hc hrem).freshFor h hn (hask h) hroom
    refine ⟨hask, hroom, hfresh, fun r t hrun => ?_⟩
    obtain ⟨r', t', hrun', ht, -⟩ := h.call hn c (hask h) hroom hfresh
    obtain ⟨rfl, rfl⟩ := Prod.mk.inj (Option.some.inj (hrun.symm.trans hrun'))
    refine Asked.served hn cs ht (fun hno => ?_) (hrest r t hrun)
    obtain ⟨hrem, hkeep⟩ := not_or.mp hno
    exact (hc hrem).call h hn hkeep (hask h) hroom hrun

/-- **A session** answers as the tree does, and leaves the metadata on the device. -/
theorem TreeOk.session {a : Args} {s : St} (hn : Numbered a) (h : TreeOk a s) (hs : Synced a s) (hc : Clear a s)
    {cs : List Call} (hcs : Asked a False cs s) : ∃ rs t, replies a cs s = some (rs, t) ∧ Synced a t ∧
      ∃ h' : TreeOk a t, DoesAll a (treeOf h) cs rs (treeOf h') := by
  have hserved := Asked.served hn cs h (fun _ => hc) hcs
  obtain ⟨rs, t, hrun, h', hdoes⟩ := h.calls hn cs hserved
  exact ⟨rs, t, hrun, (Synced.replies hn cs h.vol hs (Served.servableAll hn cs h hserved) hrun).2, h', hdoes⟩

/-- What sessions do one after the other to one tree. -/
inductive DoesSessions (a : Args) : FsTree → List Session → List (List Reply) → FsTree → Prop
  | nil {t : FsTree} : DoesSessions a t [] [] t
  | cons {t u v : FsTree} {x : Session} {rs : List Reply} {xs : List Session} {rss : List (List Reply)}
      (hdo : DoesAll (remounted a x.junk x.uid x.gid) t x.calls rs u) (hall : DoesSessions a u xs rss v) :
      DoesSessions a t (x :: xs) (rs :: rss) v

/-- **The device holds a tree of files**: there is memory that belongs to it, whose metadata stands on the
device, and of whose bits a mount loses none. -/
def Holds (a : Args) (d : Dev) (t : FsTree) : Prop :=
  ∃ s, ∃ h : TreeOk a s, s.dev = d ∧ Synced a s ∧ TailClear a s ∧ treeOf h = t

/-- The calls of each session are served, and no cluster behind the last whole byte of the bitmap is full at
its end. -/
def ServedIn (a : Args) : List Session → Dev → Prop
  | [], _ => True
  | x :: xs, d => ∀ b s, opsInit a.ciph x.junk x.uid x.gid a.fsHead.phyBlkSz.toNat d = some (b, s) →
      Asked b False x.calls s ∧
        ∀ rs t, replies b x.calls s = some (rs, t) → TailClear b t ∧ ServedIn a xs (opsDestroy t)

/-- **Sessions answer as one tree does that outlives them.** The induction is on the sessions. -/
theorem Holds.sessions {a : Args} (hn : Numbered a) (hr : Regions a.fsHead) : ∀ (xs : List Session) {d : Dev}
    {t : FsTree}, Holds a d t → ServedIn a xs d → ∃ rss d' u,
      sessions a.ciph a.fsHead.phyBlkSz.toNat xs d = some (rss, d') ∧ DoesSessions a t xs rss u ∧ Holds a d' u
  | [], d, t, h, _ => ⟨[], d, t, rfl, .nil, h⟩
  | x :: xs, d, t, ⟨s, h, hdev, hs, htail, htree⟩, hserved => by
    subst hdev
    obtain ⟨s', hop, hs', hclear, h', hsame⟩ := h.remount x.junk x.uid x.gid hs hr htail
    obtain ⟨hasked, hrest⟩ := hserved _ _ hop
    have hn' : Numbered (remounted a x.junk x.uid x.gid) := ⟨hn.clus, hn.fids⟩
    obtain ⟨rs, u, hrun, hu, h'', hdoes⟩ := h'.session hn' hs' hclear hasked
    obtain ⟨htail', hnext⟩ := hrest rs u hrun
    obtain ⟨hback, hkept⟩ := h''.reopen a.junk a.uid a.gid
    have hholds : Holds a (opsDestroy u) (treeOf h'') :=
      ⟨u, hback, rfl, hu.reopen a.junk a.uid a.gid, htail', hkept⟩
    obtain ⟨rss, d', v, hruns, hall, hend⟩ := Holds.sessions hn hr xs hholds hnext
    rw [hsame, htree] at hdoes
    refine ⟨rs :: rss, d', v, ?_, .cons hdoes hall, hend⟩
    exact Option.bind_eq_some_iff.mpr ⟨_, hop, Option.bind_eq_some_iff.mpr ⟨_, hrun,
      Option.bind_eq_some_iff.mpr ⟨_, hruns, rfl⟩⟩⟩

theorem holds_formatted {a : Args} {secSz secCnt : UInt32} {now : UInt64} {label : Fin 255 → UInt8} {d d' : Dev}
    {junk : Buf} (h : Formats a secSz secCnt now label d)
    (hmain : fmtrMain a.ciph junk secSz secCnt now label d = some d') : Holds a d' noFiles :=
  ⟨formattedSt d' now, (h.formatted hmain).treeOk, rfl, h.synced hmain, tailClear_formattedSt a d' now,
    (h.formatted hmain).treeOf_eq⟩

/-- **From the formatter on**: a device is formatted, and mounted by one process after the other. The calls
of all sessions are answered as on one tree that begins with nothing but its root, and the device ends up
holding the tree that is left. -/
theorem serves_sessions {a : Args} {secSz secCnt : UInt32} {now : UInt64} {label : Fin 255 → UInt8} {d : Dev}
    (h : Formats a secSz secCnt now label d) (hn : Numbered a) (junk : Buf) :
    ∃ d', fmtrMain a.ciph junk secSz secCnt now label d = some d' ∧ ∀ xs, ServedIn a xs d' →
      ∃ rss d'' t, sessions a.ciph secSz.toNat xs d' = some (rss, d'') ∧ DoesSessions a noFiles xs rss t ∧
        Holds a d'' t := by
  obtain ⟨d', hmain⟩ := h.completes junk
  refine ⟨d', hmain, fun xs hxs => ?_⟩
  rw [← h.sector_eq]
  exact Holds.sessions hn h.regions xs (holds_formatted h hmain) hxs

/-! ### A device of zeros -/

section Samples
variable {a : Args} {s t : St}

theorem Does.made {T u : FsTree} {now : UInt64} {path : Path} {mode : UInt32} {r : Reply}
    (h : Does a T (.mkdir now path mode) r u) : u.find (components path) ≠ none := by
  cases h with
  | mkdir hpath hfree hf =>
    rw [hpath, components_join hfree.head hfree.slash hfree.ne, FileTree.insert_find, if_pos rfl]
    exact Option.some_ne_none _

theorem Formatted.asked_mkdir (h : Formatted a s) (hn : Numbered a) (hclu : 2 ≤ a.cluCnt)
    (htbl : 2 ≤ a.fsHead.tblCnt.toNat) : Asked a False [.mkdir 0 (rootName 97) 0] s := by
  obtain ⟨hask, hroom, -⟩ := h.mkdir_call hn hclu htbl
  exact ⟨fun _ => h.treeOf_eq ▸ hask, hroom, False.elim, fun _ _ _ => trivial⟩

end Samples

/-- The first process makes a directory, and another looks at it. -/
def makeAndLook : List Session :=
  [⟨fun _ => 0, 0, 0, [.mkdir 0 (rootName 97) 0]⟩, ⟨fun _ => 255, 1, 1, [.getattr 0 (rootName 97)]⟩]

theorem servedIn_eight {d : Dev} {junk : Buf}
    (hmain : fmtrMain plainCipher junk 512 4486 1 (fun _ => 0) (Fmtr.Mounts.blankDev (512 * 4486)) = some d) :
    ServedIn eightArgs makeAndLook d := by
  have hreg := formats_blank.regions
  have hform := formats_blank.formatted hmain
  intro b s hop
  obtain ⟨s', hop', hs, hform'⟩ := hform.mount (fun _ => 0) 0 0 (formats_blank.synced hmain) hreg
  obtain ⟨rfl, rfl⟩ := Prod.mk.inj (Option.some.inj (hop'.symm.trans hop))
  have hn : Numbered (remounted eightArgs (fun _ => 0) 0 0) := ⟨numbered_eight.clus, numbered_eight.fids⟩
  have hasked := hform'.asked_mkdir hn (by decide) (by decide)
  refine ⟨hasked, fun rs t hrun => ⟨tailClear_eight _ _ _ _, fun b u hop => ?_⟩⟩
  obtain ⟨rs', t', hrun', ht, h'', hdoes⟩ := hform'.treeOk.session hn hs hform'.clear hasked
  obtain ⟨rfl, rfl⟩ := Prod.mk.inj (Option.some.inj (hrun'.symm.trans hrun))
  obtain ⟨u', hop', -, -, hu, hsame⟩ := h''.remount (fun _ => 255) 1 1 ht hreg (tailClear_eight _ _ _ _)
  obtain ⟨rfl, rfl⟩ := Prod.mk.inj (Option.some.inj (hop'.symm.trans hop))
  refine ⟨⟨fun _ => Or.inl ⟨rfl, ?_⟩, trivial, False.elim, fun _ _ _ => trivial⟩,
    fun _ _ _ => ⟨tailClear_eight _ _ _ _, trivial⟩⟩
  show (treeOf hu).find _ ≠ none
  rw [hsame]
  generalize treeOf h'' = T at hdoes
  cases hdoes with
  | cons hdo hall =>
    cases hall
    exact hdo.made

/-- **A directory is made by one process and looked at by another.** -/
theorem serves_sessions_eight : ∃ d rss d' t,
    fmtrMain plainCipher (fun _ => 0) 512 4486 1 (fun _ => 0) (Fmtr.Mounts.blankDev (512 * 4486)) = some d ∧
      sessions plainCipher 512 makeAndLook d = some (rss, d') ∧ DoesSessions eightArgs noFiles makeAndLook rss t ∧
        Holds eightArgs d' t := by
  obtain ⟨d, hmain, hall⟩ := serves_sessions formats_blank numbered_eight fun _ => 0
  obtain ⟨rss, d', t, hrun, hdoes, hholds⟩ := hall makeAndLook (servedIn_eight hmain)
  exact ⟨d, rss, d', t, hmain, hrun, hdoes, hholds⟩

end Fcfs.Vol
