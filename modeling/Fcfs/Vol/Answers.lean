import Fcfs.Vol.Eof
import Fcfs.Vol.Tree
import Mathlib.Data.Set.Card

/-! # What the driver answers

What lookups and reads give back on a volume in order, in terms of its tree: `ops_getattr` fills in all it
knows of a file, or fails on a name that is not there, `ops_readdir` hands over the names in a directory,
`ops_read` copies what a file holds up to its end. None of them changes the tree. -/

namespace Fcfs.Vol

open Lib.Bytes Lib.Walks Lib.Tree

/-- **Paths and files have been looked up**, and nothing else has happened. -/
structure Consulted (a : Args) (s t : St) : Prop where
  looked : Looked a s t
  known : ∀ q st, t.mapFid q = some st → s.mapFid q = some st ∨ Leads a s q st.stDev

section Consulted
variable {a : Args} {s t u : St} {f : ℤ} {path : Path}

theorem Traced.consulted (h : Traced a path f s t) : Consulted a s t := ⟨h.looked, h.known⟩

theorem Consulted.of_looked (h : Looked a s t) (hids : t.mapFid = s.mapFid) : Consulted a s t :=
  ⟨h, fun _ _ hq => Or.inl (hids ▸ hq)⟩

theorem Consulted.trans (h : Consulted a s t) (h' : Consulted a t u) : Consulted a s u := by
  refine ⟨h.looked.trans h'.looked, fun q st hq => ?_⟩
  rcases h'.known q st hq with hold | hleads
  · exact h.known q st hold
  · unfold Leads at hleads
    rw [h.looked.dev] at hleads
    exact Or.inr hleads

/-- **Lookups leave the tree alone.** -/
theorem TreeOk.consulted (h : TreeOk a s) (hc : Consulted a s t) : ∃ h' : TreeOk a t, treeOf h' = treeOf h := by
  have hlook := hc.looked
  have h' : TreeOk a t := by
    refine ⟨hlook.volOk h.vol, h.tree.of_looked hlook, ?_, fun q st f hhead hst hleads => ?_⟩
    · rw [hlook.dev, hlook.table]
      exact h.once
    · unfold Leads at hleads
      rw [hlook.dev] at hleads
      rcases hc.known q st hst with hold | hold
      · exact h.stat q st f hhead hold hleads
      · exact h.tree.leads_unique hold hleads
  exact ⟨h', h.treeOf_congr h' hlook.dev⟩

theorem VolOk.cint_fileSz (hv : VolOk a s) (hf : f = 0 ∨ Live s.fsTable f) :
    cint (fileSz a s.dev (nodesAt a (tab a s.dev) f)) = (fileBytes a s.dev f).length := by
  obtain ⟨cl, -, hok⟩ := hv.files f hf
  have hlt := hok.seqOk.bytes_lt hv.mounted
  have hsz := hok.size
  rw [length_fileBytes, cint_of_lt (by omega) (by omega)]

end Consulted

/-! ### `ops_getattr` -/

/-- What `ops_getattr` fills in, up to the size. -/
def statOf (a : Args) (now : UInt64) (x : FsNode) (size : ℤ) : Stat :=
  if x.id = 0 then ⟨0, x.attr.mode, 2, size, a.uid, a.gid, now, now, 0⟩
  else ⟨x.id, x.attr.mode, 1, size, a.uid, a.gid, x.attr.atime, x.attr.mtime, x.attr.ctime⟩

/-- The size of what stands at a place: the bytes of a file, 64 for each entry of a directory. -/
def SizeAt (t : FsTree) (ns : List (List UInt8)) (x : FsNode) (size : ℤ) : Prop :=
  match x.body with
  | some c => size = c.length
  | none => size / 64 = (t.names ns).ncard

section Getattr
variable {a : Args} {s t : St} {now : UInt64} {path D : Path} {name : List UInt8} {p f : ℤ} {x : FsNode}
  {ns : List (List UInt8)}

theorem statSize_all (hs : Sound a t) (st : Stat) (hf : f = 0 ∨ Live t.fsTable f) :
    ∃ u, statSize a t st f true =
      some ({ st with stSize := cint (fileSz a t.dev (nodesAt a (tab a t.dev) f)) }, u) := by
  obtain ⟨u, hsz, -⟩ := hs.devFileSize hf
  exact ⟨u, Option.bind_eq_some_iff.mpr ⟨_, hsz, rfl⟩⟩

/-- The names in a directory are those of its entries, each once. -/
theorem TreeOk.names_eq (h : TreeOk a s) (hg : Through (dirs a s.dev) 0 ns p) :
    (treeOf h).names ns = ((dirOf a s.dev p).map DirEntry.nameStr).toFinset ∧
      ((treeOf h).names ns).ncard = (dirOf a s.dev p).length := by
  have hset : (treeOf h).names ns = ((dirOf a s.dev p).map DirEntry.nameStr).toFinset := by
    ext n
    rw [treeOf_names h hg, Finset.mem_coe, List.mem_toFinset]
  refine ⟨hset, ?_⟩
  rw [hset, Set.ncard_coe_finset, List.toFinset_card_of_nodup (h.tree.nodup ns _ hg), List.length_map]

theorem TreeOk.sizeAt (h : TreeOk a s) (hx : (treeOf h).find ns = some x) : SizeAt (treeOf h) ns x
    (cint (fileSz a s.dev (nodesAt a (tab a s.dev) x.id))) := by
  have hf : x.id = 0 ∨ Live s.fsTable x.id := by
    rcases h.live_id hx with ⟨-, rfl⟩ | ⟨-, hlive⟩
    · exact Or.inl rfl
    · exact Or.inr hlive
  rw [h.vol.cint_fileSz hf]
  unfold SizeAt
  cases hbody : x.body with
  | some c =>
    obtain ⟨rfl, -⟩ := treeOf_file h hx hbody
    rfl
  | none =>
    obtain ⟨-, hcard⟩ := h.names_eq (treeOf_dir h hx hbody)
    have hlen : (dirOf a s.dev x.id).length = (fileBytes a s.dev x.id).length / 64 := by
      rw [dirOf_eq]
      unfold entriesIn
      rw [List.length_map, List.length_range]
    dsimp only
    rw [hcard, hlen]
    omega

/-- **The parent of a name** in a directory that is there has been resolved. -/
theorem TreeOk.parentAt (h : TreeOk a s) (hhead : D.head? = some 47)
    (hg : Through (dirs a s.dev) 0 (components D) p) (hslash : (47 : UInt8) ∉ name) (hne : name ≠ [])
    (now : UInt64) : ∃ n t, (joinPath D name).length = n + 1 ∧
      ParentAt a now n (joinPath D name) true name p s t ∧ Traced a D p s t := by
  obtain ⟨n, hn⟩ : ∃ n, (joinPath D name).length = n + 1 :=
    ⟨(joinPath D name).length - 1, by have := length_join (D := D) hne; omega⟩
  have hlen : D.length ≤ n := by
    have := length_join (D := D) hne
    omega
  obtain ⟨pst, t, hpar, hdev, htr⟩ : ∃ pst t, opsGetattrAux a now n D false s = some (0, pst, t) ∧
      pst.stDev = p ∧ Traced a D p s t := getattrAux_traced h.tree h.stat now n hlen hhead hg.walk
  have hlook := htr.looked
  exact ⟨n, t, hn, ⟨rfl, join_ne_root hne, baseName_join D hslash,
    ⟨D, 0, pst, parentPath_join hhead hslash, hpar, hdev⟩, hlook.sound h.tree.sound,
    by rw [hlook.table]; exact h.tree.live hg⟩, htr⟩

/-- What is filled in for an entry. -/
def entryStat (a : Args) (s : St) (e : DirEntry) : Stat :=
  ⟨fidOf e, e.mode, (s.fsTable.entrs (fidOf e)).lnkCnt.toNat,
    cint (fileSz a s.dev (nodesAt a (tab a s.dev) (fidOf e))), a.uid, a.gid, e.atime, e.mtime, e.ctime⟩

/-- **All that is filled in** for an entry of the parent. -/
theorem ParentAt.stat {n : ℕ} {bs : List UInt8} (hat : ParentAt a now n path true bs p s t) {e : DirEntry}
    (hfind : (dirOf a t.dev p).find? (fun x => x.nameStr == bs) = some e) (hfile : Live t.fsTable (fidOf e)) :
    ∃ u, opsGetattrAux a now (n + 1) path true s = some (0, entryStat a t e, u) := by
  obtain ⟨np, r, pst, hnp, hpar, rfl⟩ := hat.parent
  obtain ⟨d, v, hdir, hd, hlook, -, -⟩ := devReadDir_eq hat.sound hat.live
  obtain ⟨u, hsize⟩ := statSize_all (hlook.sound hat.sound)
    ⟨0, e.mode, (v.fsTable.entrs (fidOf e)).lnkCnt.toNat, 0, a.uid, a.gid, e.atime, e.mtime, e.ctime⟩
    (Or.inr (by rw [hlook.table]; exact hfile))
  rw [hlook.dev, hlook.table] at hsize
  refine ⟨cacheStatAdd u path (entryStat a t e), ?_⟩
  unfold opsGetattrAux
  rw [hat.miss]
  dsimp only
  rw [if_neg hat.notRoot]
  refine Option.bind_eq_some_iff.mpr ⟨_, hnp, ?_⟩
  refine Option.bind_eq_some_iff.mpr ⟨_, hpar, ?_⟩
  refine Option.bind_eq_some_iff.mpr ⟨_, hdir, ?_⟩
  refine Option.bind_eq_some_iff.mpr ⟨_, hat.base, ?_⟩
  dsimp only
  rw [hd, hfind, hlook.table]
  refine Option.bind_eq_some_iff.mpr ⟨_, hsize, ?_⟩
  dsimp only [entryStat, fidOf]

/-- **`ops_getattr` fills in what is known of a file.** -/
theorem TreeOk.getattr (h : TreeOk a s) (hhead : path.head? = some 47)
    (hx : (treeOf h).find (components path) = some x) (now : UInt64) :
    ∃ size s', opsGetattr a now s path = some (0, statOf a now x size, s') ∧
      SizeAt (treeOf h) (components path) x size ∧ Consulted a s s' := by
  have hleads : Leads a s path x.id := treeOf_walk h hx
  obtain ⟨st, s', hop, -, htr⟩ : ∃ st t, opsGetattr a now s path = some (0, st, t) ∧ st.stDev = x.id ∧
      Traced a path x.id s t := getattrAux_traced h.tree h.stat now path.length le_rfl hhead hleads
  refine ⟨cint (fileSz a s.dev (nodesAt a (tab a s.dev) x.id)), s', ?_, h.sizeAt hx, htr.consulted⟩
  suffices hst : ∃ u, opsGetattr a now s path =
      some (0, statOf a now x (cint (fileSz a s.dev (nodesAt a (tab a s.dev) x.id))), u) by
    obtain ⟨u, hu⟩ := hst
    obtain ⟨-, heq⟩ := Prod.mk.inj (Option.some.inj (hop.symm.trans hu))
    obtain ⟨rfl, rfl⟩ := Prod.mk.inj heq
    exact hu
  by_cases hroot : path = rootPath
  · subst hroot
    obtain rfl := Option.some.inj hx
    obtain ⟨u, hsize⟩ := statSize_all h.tree.sound ⟨0, 0o40777, 2, 0, a.uid, a.gid, now, now, 0⟩ (Or.inl rfl)
    exact ⟨u, Option.bind_eq_some_iff.mpr ⟨_, hsize, rfl⟩⟩
  · obtain ⟨D, p, e, rfl, hheadD, hslash, hne, hg, he, hnode⟩ := h.entry hhead hroot hleads
    obtain ⟨n, t, hn, hat, htrD⟩ := h.parentAt hheadD hg hslash hne now
    have hlook := htrD.looked
    have hfind : (dirOf a t.dev p).find? (fun x => x.nameStr == e.nameStr) = some e := by
      rw [hlook.dev]
      exact h.tree.find hg he
    have hlive := h.tree.files _ p hg e he
    obtain ⟨u, hu⟩ := hat.stat hfind (by rw [hlook.table]; exact hlive)
    refine ⟨u, ?_⟩
    have hcomp := components_join hheadD hslash hne
    rw [hcomp] at hx
    obtain ⟨y, hy, rfl⟩ := Option.map_eq_some_iff.mp ((h.once.find_snoc h.distinct rfl rfl).symm.trans hx)
    obtain ⟨k, hk, hmem, hname⟩ := (lookup_iff h.distinct).mp hy
    obtain rfl := Walk.unique h.distinct hk.walk hg.walk
    obtain rfl : y = e := List.inj_on_of_nodup_map (h.tree.nodup _ _ hg) hmem he hname
    have hne0 : fidOf y ≠ 0 := (h.once.lookup_named h.distinct hy).1
    have hstat : entryStat a t y = statOf a now ((dirs a s.dev).nodeOf attrOf (fileBytes a s.dev) y)
        (cint (fileSz a s.dev (nodesAt a (tab a s.dev) (fidOf y)))) := by
      unfold entryStat statOf
      rw [hlook.dev, hlook.table, h.vol.lnk _ hlive hne0]
      exact (if_neg hne0).symm
    unfold opsGetattr opsGetattr'
    rw [hn, hu, hstat]
    rfl

/-- **`ops_getattr` of a name that is not there** fails. -/
theorem TreeOk.getattr_missing (h : TreeOk a s) (hhead : D.head? = some 47)
    (hdir : (treeOf h).HasDir (components D)) (hslash : (47 : UInt8) ∉ name) (hne : name ≠ [])
    (hnone : (treeOf h).find (components D ++ [name]) = none) (now : UInt64) :
    ∃ st s', opsGetattr a now s (joinPath D name) = some (-enoent, st, s') ∧ Consulted a s s' := by
  obtain ⟨y, hy, hbody⟩ := hdir
  have hg := treeOf_dir h hy hbody
  obtain ⟨n, t, hn, hat, htr⟩ := h.parentAt hhead hg hslash hne now
  have hfind : (dirOf a t.dev y.id).find? (fun x => x.nameStr == name) = none := by
    rw [htr.looked.dev, List.find?_eq_none]
    intro e he heq
    have hin : name ∈ (dirOf a s.dev y.id).map DirEntry.nameStr :=
      List.mem_map.mpr ⟨e, he, eq_of_beq heq⟩
    exact (treeOf_names h hg).mpr hin hnone
  obtain ⟨st, u, hop, -, hlook, hids⟩ := hat.missing hfind
  refine ⟨st, u, ?_, htr.consulted.trans (Consulted.of_looked hlook hids)⟩
  unfold opsGetattr opsGetattr'
  rw [hn]
  exact hop

end Getattr

/-! ### `ops_readdir`, `ops_open` and `ops_opendir` -/

section Lookup
variable {a : Args} {s : St} {path : Path} {x : FsNode}

/-- **`ops_readdir` hands over every name in a directory once.** -/
theorem TreeOk.readdir (h : TreeOk a s) (hhead : path.head? = some 47)
    (hx : (treeOf h).find (components path) = some x) (hdir : x.body = none) :
    ∃ names s', opsReaddir a s path = some ([46] :: [46, 46] :: names, s') ∧ names.Nodup ∧
      (∀ n, n ∈ names ↔ n ∈ (treeOf h).names (components path)) ∧ Consulted a s s' := by
  have hg := treeOf_dir h hx hdir
  obtain ⟨t, hfid, htr⟩ := fcfsGetFid_traced h.tree h.stat hhead hg.walk
  have ht := h.of_traced htr
  have hlook := htr.looked
  obtain ⟨d, u, hread, hd, hlooku, hids, -⟩ := devReadDir_eq ht.tree.sound
    (by rw [hlook.table]; exact h.tree.live hg)
  have hall : ∀ n ∈ (dirOf a s.dev x.id).map DirEntry.nameStr, decide (n ≠ []) = true := by
    intro n hn
    obtain ⟨e, he, rfl⟩ := List.mem_map.mp hn
    exact decide_eq_true (h.tree.named _ _ hg e he)
  refine ⟨(dirOf a s.dev x.id).map DirEntry.nameStr, u, ?_, h.tree.nodup _ _ hg,
    fun n => (treeOf_names h hg).symm, htr.consulted.trans (Consulted.of_looked hlooku hids)⟩
  refine Option.bind_eq_some_iff.mpr ⟨_, hfid, Option.bind_eq_some_iff.mpr ⟨_, hread, ?_⟩⟩
  dsimp only
  rw [hd, hlook.dev, List.filter_eq_self.mpr hall]

/-- **`ops_open` and `ops_opendir` set the handle** to the identifier. -/
theorem TreeOk.opn (h : TreeOk a s) (hhead : path.head? = some 47)
    (hx : (treeOf h).find (components path) = some x) :
    ∃ s', opsOpen a s path = some (0, x.id, s') ∧ Consulted a s s' := by
  obtain ⟨t, hfid, htr⟩ := fcfsGetFid_traced h.tree h.stat hhead (treeOf_walk h hx)
  exact ⟨t, Option.bind_eq_some_iff.mpr ⟨_, hfid, rfl⟩, htr.consulted⟩

theorem TreeOk.target (h : TreeOk a s) (hhead : path.head? = some 47)
    (hx : (treeOf h).find (components path) = some x) {fh : ℤ} (hfh : fh = 0 ∨ fh = x.id) :
    ∃ t, Fcfs.writeFid a s path fh = some (x.id, t) ∧ Consulted a s t := by
  unfold Fcfs.writeFid
  by_cases h0 : fh = 0
  · obtain ⟨t, hop, hcons⟩ := h.opn hhead hx
    rw [if_pos h0]
    exact ⟨t, Option.bind_eq_some_iff.mpr ⟨_, hop, rfl⟩, hcons⟩
  · rw [if_neg h0, hfh.resolve_left h0]
    exact ⟨s, rfl, Consulted.of_looked (Looked.refl a s) rfl⟩

end Lookup

/-! ### `ops_read` -/

/-- What a read up to the end leaves in the buffer. -/
def copied (buf : Buf) (c : List UInt8) (size offset : ℕ) : Buf :=
  memcpy buf 0 (fun i => c.getD (offset + i) 0) (min size (c.length - offset))

section Read
variable {a : Args} {s : St} {f : ℤ} {size offset : ℕ}

/-- **`ops_read` of a file in order** from an offset in it. -/
theorem VolOk.read_upTo (hv : VolOk a s) (hf : f = 0 ∨ Live s.fsTable f) (hsize : size < 2 ^ 31)
    (hoff : offset ≤ (fileBytes a s.dev f).length) (buf : Buf) :
    ∃ s', opsRead a s buf size offset f = some (((min size ((fileBytes a s.dev f).length - offset) : ℕ) : ℤ),
      copied buf (fileBytes a s.dev f) size offset, s') ∧ Consulted a s s' := by
  obtain ⟨l, c, cl, hop, hl, -, hok, hlook⟩ := hv.sound.lookup hf
  have hm : Mounted a (Vol.looked s f c l).dev := hv.mounted
  have hseq := hok.seqOk.perm hl
  have hcont : content a s.dev l = content a s.dev (nodesAt a (tab a s.dev) f) := content_perm hok.seqOk hl s.dev
  have hfsz : fileSz a s.dev l = (fileBytes a s.dev f).length := by
    rw [length_fileBytes]
    exact fileSz_perm hok.seqOk hl s.dev
  have hsz := hok.size
  rw [← hl.length_eq, ← fileSz_perm hok.seqOk hl] at hsz
  have hne : l ≠ [] := by
    rintro rfl
    exact hok.ne hl.symm.eq_nil
  have h31 := hseq.bytes_lt hm
  rw [← hfsz] at hoff
  obtain ⟨-, hread⟩ := opsRead_upTo hseq hne hm hop hsz h31 hsize (by omega) hoff
  refine ⟨Vol.looked s f c l, ?_, Consulted.of_looked hlook rfl⟩
  rw [hread buf]
  show some (((min size (fileSz a s.dev l - offset) : ℕ) : ℤ), memcpy buf 0 (shift (content a s.dev l) (offset + 4))
    (min size (fileSz a s.dev l - offset)), Vol.looked s f c l) = _
  unfold copied
  rw [hfsz]
  refine congrArg (fun b => some (((min size ((fileBytes a s.dev f).length - offset) : ℕ) : ℤ), b,
    Vol.looked s f c l)) (funext fun i => ?_)
  by_cases hi : i < min size ((fileBytes a s.dev f).length - offset)
  · have hin : offset + i < leNat 4 (content a s.dev (nodesAt a (tab a s.dev) f)) := by
      have hlen : (fileBytes a s.dev f).length = leNat 4 (content a s.dev (nodesAt a (tab a s.dev) f)) :=
        length_fileBytes a s.dev f
      omega
    rw [memcpy_in (Nat.zero_le i) (by omega), memcpy_in (Nat.zero_le i) (by omega), shift_apply, Nat.sub_zero,
      hcont]
    unfold fileBytes
    rw [getD_bytesOf hin]
    congr 1
    omega
  · rw [memcpy_out (by omega), memcpy_out (by omega)]

/-- **`ops_read` copies what a file holds**, up to its end. -/
theorem TreeOk.read (h : TreeOk a s) {ns : List (List UInt8)} {x : FsNode} {c : List UInt8}
    (hx : (treeOf h).find ns = some x) (hfile : x.body = some c) (hsize : size < 2 ^ 31)
    (hoff : offset ≤ c.length) (buf : Buf) :
    ∃ s', opsRead a s buf size offset x.id =
      some (((min size (c.length - offset) : ℕ) : ℤ), copied buf c size offset, s') ∧ Consulted a s s' := by
  obtain ⟨-, -, hlive⟩ := h.file_live hx hfile
  obtain ⟨rfl, -⟩ := treeOf_file h hx hfile
  exact h.vol.read_upTo (Or.inr hlive) hsize hoff buf

end Read

end Fcfs.Vol
