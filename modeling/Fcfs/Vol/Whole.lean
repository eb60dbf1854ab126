import Fcfs.Vol.DirLoop
import Fcfs.Vol.Links
import Fcfs.Vol.Named

/-! # Made as a whole or not at all

`ops_create` and `ops_mkdir` call `dev_create_file` and `dev_init_file`, drop what they return, and
return 0. So a file is made as a whole when there is an identifier, a block and room for the entry
(`MakeOk`), and when one of them is missing the result is 0 all the same: without an identifier, without
a cluster, and in a root that is full (`allOrNothing_of_makeOk`). The root is full with 111 entries on a
volume of blocks of 1024 bytes, and the file that is made then is in no directory
(`not_allOrNothing_wide`). -/

namespace Fcfs.Vol

open Lib.Bytes Lib.Walks

/-! ### All or nothing -/

/-- **The file `f` is new in the directory**: the identifier was free, one entry more names it, it has one
link, and one block with size 0. -/
structure NewIn (a : Args) (f p : ℤ) (name : List UInt8) (s s' : St) : Prop where
  range : 0 < f ∧ f < a.fsHead.tblCnt.toNat
  free : (s.fsTable.entrs f).lnkCnt = 0
  entry : ∃ e, dirOf a s'.dev p = dirOf a s.dev p ++ [e] ∧ e.nameStr = name ∧ fidOf e = f
  lnk : (s'.fsTable.entrs f).lnkCnt = 1
  block : ∃ c b, nodesAt a (tab a s'.dev) f = [⟨c, b, 0⟩] ∧
    leNat 4 (a.ciph.decrypt a.lblkSz (data a s'.dev c b)) = 0

/-- **All is as before**: the table, the bitmap, the cluster tables and the bytes of every file, with the
root's. -/
structure AsBefore (a : Args) (s s' : St) : Prop where
  table : s'.fsTable = s.fsTable
  bitmap : s'.fsBitmap = s.fsBitmap
  tabs : tab a s'.dev = tab a s.dev
  files : ∀ g : ℤ, 0 ≤ g → g < tableLen → fileBytes a s'.dev g = fileBytes a s.dev g

/-- **A creation is all or nothing**: 0 and a new file, or a negative value and all as before. -/
def AllOrNothing (a : Args) (s : St) (p : ℤ) (name : List UInt8) (out : Option (ℤ × St)) : Prop :=
  ∃ r s', out = some (r, s') ∧ (r = 0 ∧ (∃ f, NewIn a f p name s s') ∨ r < 0 ∧ AsBefore a s s')

/-! ### What is missing -/

section Missing
variable {a : Args} {s t u : St} {f g p r : ℤ}

theorem freeFidFrom_none {t : FcfsTable} : ∀ {n : ℕ} {i : ℤ}, 0 < i → freeFidFrom t n i ≤ 0 →
    ∀ j, i ≤ j → j < i + n → (t.entrs j).lnkCnt ≠ 0
  | 0, i, _, _, j, hj, hlt => absurd hlt (by omega)
  | n + 1, i, hi, h, j, hj, hlt => by
    unfold freeFidFrom at h
    by_cases hz : (t.entrs i).lnkCnt = 0
    · rw [if_pos hz] at h
      omega
    · rw [if_neg hz] at h
      by_cases hij : j = i
      · rw [hij]
        exact hz
      · exact freeFidFrom_none (by omega) h j (by omega) (by omega)

/-- Without an identifier every entry of the table has a link. -/
theorem devFreeFid_none {t : FcfsTable} (h : devFreeFid a t ≤ 0) (h0 : 0 < f)
    (hf : f < a.fsHead.tblCnt.toNat) : (t.entrs f).lnkCnt ≠ 0 :=
  freeFidFrom_none Int.one_pos h f (by omega) (by omega)

/-- Without a cluster the entry of the file is cleared, and no other link count changes. -/
theorem devFileAlloc_none (h : devFreeCluster a s.fsBitmap ≤ 0) (hop : devFileAlloc a s f = some (r, t)) :
    t = setEntry s f TableEntry.zero := by
  unfold devFileAlloc at hop
  have hcid : devFreeCluster a (setEntry s f TableEntry.zero).fsBitmap ≤ 0 := h
  rcases ite_eq_iff.mp hop with ⟨-, hop⟩ | ⟨hpos, -⟩
  · exact (Prod.mk.inj (Option.some.inj hop)).2.symm
  · exact absurd hcid hpos

theorem lnkCnt_devCreateFile (h : devFreeCluster a s.fsBitmap ≤ 0) {now : UInt64} {name : List UInt8}
    {mode : UInt32} (hf : 0 < f) (hop : devCreateFile a s now p f name mode = some (r, t)) :
    (t.fsTable.entrs g).lnkCnt = if g = f then 0 else (s.fsTable.entrs g).lnkCnt := by
  unfold devCreateFile at hop
  rw [if_neg (by omega)] at hop
  obtain ⟨⟨dirs, u⟩, hread, hop⟩ := Option.bind_eq_some_iff.mp hop
  obtain ⟨⟨r', v⟩, halloc, hop⟩ := Option.bind_eq_some_iff.mp hop
  have hu := sameVol_devReadDir hread
  have hv := devFileAlloc_none (by rw [hu.bitmap]; exact h) halloc
  rcases ite_eq_iff.mp hop with ⟨-, hop⟩ | ⟨-, hop⟩
  · cases hop
  · rw [(aside_devWriteDir hop).links g, hv]
    by_cases hgf : g = f
    · rw [if_pos hgf, hgf, setEntry_self]
      rfl
    · rw [if_neg hgf, setEntry_other _ _ _ hgf, hu.table]

theorem table_devInitFile (hop : devInitFile a s f = some (r, t)) : t.fsTable = s.fsTable := by
  unfold devInitFile at hop
  obtain ⟨⟨cid, u⟩, hget, hop⟩ := Option.bind_eq_some_iff.mp hop
  obtain ⟨bl, -, hop⟩ := Option.bind_eq_some_iff.mp hop
  split at hop
  · cases hop
  · rw [devWriteBlock_frame hop]
    exact (sameVol_devTblClrsGet hget).table

end Missing

/-! ### A full root -/

section Full
variable {a : Args} {s s' t : St} {f r r' : ℤ} {q : ℤ × ℕ}

/-- Writing to a root that is full is a lookup of its blocks. -/
theorem devWriteDir_full {ent : List DirEntry} {l : List BlkInfo}
    (hseq : devGetFileSeq a s 0 = some (l, t)) (hneed : (l.length : ℤ) < dirNeed a ent.length)
    (hop : devWriteDir a s 0 ent = some (r, s')) : s' = t := by
  unfold devWriteDir at hop
  obtain ⟨⟨l', t'⟩, hseq', hop⟩ := Option.bind_eq_some_iff.mp hop
  obtain ⟨rfl, rfl⟩ := Prod.mk.inj (Option.some.inj (hseq.symm.trans hseq'))
  obtain ⟨⟨z, l'', u⟩, hgrow, hloop⟩ := Option.bind_eq_some_iff.mp hop
  unfold growTo at hgrow
  unfold dirNeed at hneed
  rw [if_pos hneed] at hgrow
  obtain ⟨rfl, rfl, rfl⟩ := devExtdBlkList_root hgrow
  have hrounds : toSizeT (-1) = (2 ^ 64 - 2) + 1 := by decide
  dsimp only at hloop
  rw [hrounds, writeDirLoop_neg _ _ (by decide)] at hloop
  exact (Prod.mk.inj (Option.some.inj hloop)).2.symm

/-- **A full root keeps its entries.** -/
theorem VolOk.make_full (hv : VolOk a s) (hsm : a.cluCnt ≤ 65535) (hf0 : 0 < f) (hft : f < tableLen)
    (hdead : ¬ Live s.fsTable f) {rest : List (ℤ × ℕ)} (hq : freeBlks a (tab a s.dev) = q :: rest)
    (hfirst : s.clrsCache.fid = f → clrsAt a s.clrsCache 0 = q.1)
    (hneed : 7 < dirNeed a ((dirOf a s.dev 0).length + 1)) {now : UInt64} {name : List UInt8}
    {mode : UInt32} (hop : devCreateFile a s now 0 f name mode = some (r, t))
    (hinit : devInitFile a t f = some (r', s')) : dirOf a s'.dev 0 = dirOf a s.dev 0 := by
  have hL : 1024 ≤ a.lblkSz := hv.mounted.geo.le_lblkSz
  have hqin : q ∈ freeBlks a (tab a s.dev) := by
    rw [hq]
    exact List.mem_cons_self
  have h0 : (0 : ℤ) < tableLen := by decide
  -- the block is taken
  obtain ⟨d, v, hread, hd, hlook, -⟩ := devReadDir_eq hv.sound (Or.inl rfl)
  have hvv := hlook.volOk hv
  have hdev := hlook.dev
  rw [← hdev] at hq hqin
  obtain ⟨clf, hfree⟩ := hvv.free f hf0 hft (by rw [hlook.table]; exact hdead)
  obtain ⟨u, halloc, hal⟩ := devFileAlloc_eq hvv.mounted hvv.agree (f := f) hq
  have hon := hal.onFile_self hqin
  have hnb : Newborn a f q.1 q.2 u := hal.newborn hL hsm (by omega) hqin hfree.none fun hfid => by
    rcases hlook.clrs f hf0 hft hdead with heq | hne
    · rw [heq] at hfid ⊢
      exact hfirst hfid
    · exact absurd hfid hne
  have hvu : VolBut a {f} u := (hvv.but {f}).step rfl hon (by omega) hft (Or.inl hnb.sec)
  obtain ⟨cl, -, hok⟩ := hvu.files 0 (fun hin => by rw [Set.mem_singleton_iff] at hin; omega) (Or.inl rfl)
  -- the directory is not written
  obtain ⟨l, c, hseq, hl, hc⟩ := hok.lookup hon.mounted
  have hlen : l.length = 7 := by rw [hl.length_eq, length_nodesAt_root hon.agree.root]
  unfold devCreateFile at hop
  rw [if_neg (by omega)] at hop
  obtain ⟨⟨d', v'⟩, hread', hop⟩ := Option.bind_eq_some_iff.mp hop
  obtain ⟨rfl, rfl⟩ := Prod.mk.inj (Option.some.inj (hread.symm.trans hread'))
  obtain ⟨⟨r'', u'⟩, halloc', hop⟩ := Option.bind_eq_some_iff.mp hop
  obtain ⟨-, rfl⟩ := Prod.mk.inj (Option.some.inj (halloc.symm.trans halloc'))
  rcases ite_eq_iff.mp hop with ⟨-, hop⟩ | ⟨-, hop⟩
  · cases hop
  have ht := devWriteDir_full hseq (by
    rw [List.length_append, hd, List.length_singleton, hlen]
    exact hneed) hop
  have hlooku : OnFile a 0 u t := by
    rw [ht]
    exact onFile_looked hon.mounted hon.agree (hc.imp_right Loaded.fid)
  -- and the size header is the file's
  have hnbt := hnb.of_onFile hlooku (le_refl 0) h0 hf0 hft (by omega)
  obtain ⟨r₁, w, hinit', honw, -⟩ := hnbt.init hlooku.mounted hlooku.agree (by omega)
  obtain ⟨-, rfl⟩ := Prod.mk.inj (Option.some.inj (hinit'.symm.trans hinit))
  have htdev : t.dev = u.dev := by
    rw [ht]
    rfl
  rw [dirOf_eq, dirOf_eq, honw.fileBytes (by omega) hft (by omega) (le_refl 0) h0 (Or.inl hnbt.sec), htdev,
    hon.fileBytes (by omega) hft (by omega) (le_refl 0) h0 (hvv.owned (by omega) hft), hdev]

end Full

/-! ### The claim -/

section Claim
variable {a : Args} {s s' : St} {D path : Path} {name : List UInt8} {p r : ℤ} {now : UInt64}
  {mode : UInt32} {out : Option (ℤ × St)}

theorem opsMake_steps (hout : out = opsCreate a now s path mode ∨ out = opsMkdir a now s path mode)
    (h : out = some (r, s')) : r = 0 ∧ ∃ p t name m r₁ u r₂, fcfsGetPfid a s path = some (p, t) ∧
      baseName path = some name ∧
      devCreateFile a t now p (devFreeFid a s.fsTable) name m = some (r₁, u) ∧
      devInitFile a u (devFreeFid a s.fsTable) = some (r₂, s') := by
  rcases hout with rfl | rfl
  · obtain ⟨⟨p, t⟩, hpar, h⟩ := Option.bind_eq_some_iff.mp h
    obtain ⟨name, hbase, h⟩ := Option.bind_eq_some_iff.mp h
    obtain ⟨⟨r₁, u⟩, hc, h⟩ := Option.bind_eq_some_iff.mp h
    obtain ⟨⟨r₂, v⟩, hi, h⟩ := Option.bind_eq_some_iff.mp h
    obtain ⟨rfl, rfl⟩ := Prod.mk.inj (Option.some.inj h)
    rw [(sameVol_fcfsGetPfid hpar).table] at hc hi
    exact ⟨rfl, p, t, name, _, r₁, u, r₂, hpar, hbase, hc, hi⟩
  · obtain ⟨name, hbase, h⟩ := Option.bind_eq_some_iff.mp h
    obtain ⟨⟨p, t⟩, hpar, h⟩ := Option.bind_eq_some_iff.mp h
    obtain ⟨⟨r₁, u⟩, hc, h⟩ := Option.bind_eq_some_iff.mp h
    obtain ⟨⟨r₂, v⟩, hi, h⟩ := Option.bind_eq_some_iff.mp h
    obtain ⟨rfl, rfl⟩ := Prod.mk.inj (Option.some.inj h)
    exact ⟨rfl, p, t, name, _, r₁, u, r₂, hpar, hbase, hc, hi⟩

/-- All or nothing is all: no creation returns a negative value. -/
theorem AllOrNothing.all (hout : out = opsCreate a now s path mode ∨ out = opsMkdir a now s path mode)
    (h : AllOrNothing a s p name out) : ∃ s' f, out = some (0, s') ∧ NewIn a f p name s s' := by
  obtain ⟨r, s', hop, ⟨rfl, f, hnew⟩ | ⟨hneg, -⟩⟩ := h
  · exact ⟨s', f, hop, hnew⟩
  · obtain ⟨rfl, -⟩ := opsMake_steps hout hop
    omega

theorem AllOrNothing.fid (hout : out = opsCreate a now s path mode ∨ out = opsMkdir a now s path mode)
    (h : AllOrNothing a s p name out) : 0 < devFreeFid a s.fsTable := by
  obtain ⟨s', f, -, hnew⟩ := h.all hout
  by_contra hle
  exact devFreeFid_none (by omega) hnew.range.1 hnew.range.2 hnew.free

theorem AllOrNothing.cluster (hout : out = opsCreate a now s path mode ∨ out = opsMkdir a now s path mode)
    (h : AllOrNothing a s p name out) : 0 < devFreeCluster a s.fsBitmap := by
  have hpos := h.fid hout
  obtain ⟨s', f, hop, hnew⟩ := h.all hout
  obtain ⟨-, p', t, name', m, r₁, u, r₂, hpar, -, hc, hi⟩ := opsMake_steps hout hop
  have hsame := sameVol_fcfsGetPfid hpar
  by_contra hle
  have hlnk := lnkCnt_devCreateFile (g := f) (by rw [hsame.bitmap]; omega) hpos hc
  rw [← table_devInitFile hi, hnew.lnk, hsame.table, hnew.free, ite_self] at hlnk
  exact absurd hlnk (by decide)

section Exact
variable (hv : VolOk a s) (hn : Numbered a) (ht : DirTree a s) (hc : StatOk a s)
  (hforget : Forgotten s (devFreeFid a s.fsTable) (firstFree a s)) (hnew : NewName a s D name p)
  (hout : out = opsCreate a now s (joinPath D name) mode ∨ out = opsMkdir a now s (joinPath D name) mode)
include hv hn ht hc hforget hnew hout

/-- **With an identifier, a block and room** the file is made as a whole. -/
theorem MakeOk.whole (hlen : name.length < 32) (hok : MakeOk a s (joinPath D name)) :
    AllOrNothing a s p name out := by
  obtain ⟨hft, hdead⟩ := devFreeFid_free hn hok.fid
  obtain ⟨hle, hlt, hlnk⟩ := freeFidFrom_range hok.fid
  obtain ⟨t, hpar, hres⟩ := hnew.pfid ht hc
  have hbase := baseName_join D hnew.slash
  have hfirst := hforget.first hv.mounted hok.first_mem
  obtain ⟨m, s', hop, hmade⟩ : ∃ m s', out = some (0, s') ∧ Made a (devFreeFid a s.fsTable) p
      (firstFree a s) (newEntry now (devFreeFid a s.fsTable) name m) t s' := by
    rcases hout with rfl | rfl
    · exact ⟨_, hv.create hn hok hfirst hpar hbase hlen now mode⟩
    · exact ⟨_, hv.mkdir hn hok hfirst hpar hbase hlen now mode⟩
  have hrange : devFreeFid a s.fsTable < a.fsHead.tblCnt.toNat := by
    unfold devFreeFid
    omega
  have hdir := hmade.dir
  rw [hres.looked.dev] at hdir
  exact ⟨0, s', hop, Or.inl ⟨rfl, devFreeFid a s.fsTable, ⟨hok.fid, hrange⟩, hlnk,
    ⟨_, hdir, nameStr_newEntry now _ m hlen hnew.nul, fidOf_newEntry now name m hok.fid.le hft⟩,
    hmade.newborn.lnk, _, _, hmade.newborn.nodes, hmade.size⟩⟩

theorem AllOrNothing.room (h : AllOrNothing a s p name out) (hp : p = 0)
    (hblk : freeBlks a (tab a s.dev) ≠ []) : dirNeed a ((dirOf a s.dev 0).length + 1) ≤ 7 := by
  have hpos := h.fid hout
  obtain ⟨hft, hdead⟩ := devFreeFid_free hn hpos
  obtain ⟨s', f, hop, hnewin⟩ := h.all hout
  obtain ⟨t, hpar, hres⟩ := hnew.pfid ht hc
  obtain ⟨-, p', t', name', m, r₁, u, r₂, hpar', -, hcreate, hinit⟩ := opsMake_steps hout hop
  obtain ⟨rfl, rfl⟩ := Prod.mk.inj (Option.some.inj (hpar.symm.trans hpar'))
  have hlook := hres.looked
  subst hp
  by_contra hgt
  obtain ⟨rest, hrest⟩ := firstFree_cons hblk
  obtain ⟨e, hdir, -⟩ := hnewin.entry
  have hq : freeBlks a (tab a t.dev) = firstFree a s :: rest := by
    rw [hlook.dev]
    exact hrest
  have hmem : firstFree a s ∈ freeBlks a (tab a t.dev) := by
    rw [hq]
    exact List.mem_cons_self
  have hsame := (hlook.volOk hv).make_full hn.clus hpos hft (by rw [hlook.table]; exact hdead) hq
    (fun hfid => (hforget.of_looked hlook hpos hft hdead).first (hlook.volOk hv).mounted hmem hfid)
    (by rw [hlook.dev]; omega) hcreate hinit
  rw [hsame, hlook.dev] at hdir
  have hlen := congrArg List.length hdir
  rw [List.length_append, List.length_singleton] at hlen
  omega

theorem AllOrNothing.makeOk (h : AllOrNothing a s p name out) (hp : p = 0)
    (hblk : freeBlks a (tab a s.dev) ≠ []) : MakeOk a s (joinPath D name) := by
  have hneed := h.room hv hn ht hc hforget hnew hout hp hblk
  obtain ⟨t, hpar, -⟩ := hnew.pfid ht hc
  refine ⟨h.fid hout, hblk, fun p' t' hpar' => ?_⟩
  obtain ⟨rfl, -⟩ := Prod.mk.inj (Option.some.inj (hpar.symm.trans hpar'))
  subst hp
  refine ⟨Or.inl rfl, fun v hal => fits_of_le ?_⟩
  rw [length_nodesAt_root hal.agree.root]
  exact hneed

/-- **A creation is all or nothing when it has all it needs**, and not without an identifier, without a
cluster, or in a root that is full. -/
theorem allOrNothing_of_makeOk (hlen : name.length < 32) :
    (MakeOk a s (joinPath D name) → AllOrNothing a s p name out) ∧
      (AllOrNothing a s p name out → 0 < devFreeFid a s.fsTable ∧ 0 < devFreeCluster a s.fsBitmap ∧
        (p = 0 → freeBlks a (tab a s.dev) ≠ [] → MakeOk a s (joinPath D name))) :=
  ⟨fun hok => hok.whole hv hn ht hc hforget hnew hout hlen, fun h => ⟨h.fid hout, h.cluster hout,
    fun hp hblk => h.makeOk hv hn ht hc hforget hnew hout hp hblk⟩⟩

end Exact

end Claim

/-! ### Filling the root -/

/-- The name of the `i`-th file that is made. -/
def letter (i : ℕ) : List UInt8 := [UInt8.ofNat (i + 48)]

theorem letter_inj {i j : ℕ} (hi : i < 208) (hj : j < 208) (h : letter i = letter j) : i = j := by
  have hval := congrArg UInt8.toNat (List.cons.inj h).1
  rw [UInt8.toNat_ofNat', UInt8.toNat_ofNat'] at hval
  omega

theorem letter_ne {i : ℕ} (hi : i < 208) {x : UInt8} (hx : x.toNat < 48) : x ∉ letter i := by
  intro hin
  have hval := congrArg UInt8.toNat (List.mem_singleton.mp hin)
  rw [UInt8.toNat_ofNat'] at hval
  omega

/-- **A volume with `n` files in the root** and none elsewhere. -/
structure Listed (a : Args) (n : ℕ) (s : St) : Prop where
  vol : VolOk a s
  tree : DirTree a s
  ids : ∀ q, s.mapFid q = none
  links : ∀ f : ℤ, 0 < f → f < tableLen → ((s.fsTable.entrs f).lnkCnt = 0 ↔ (n : ℤ) < f)
  cold : ∀ f : ℤ, (n : ℤ) < f → s.mapSeq f = none ∧ s.clrsCache.fid ≠ f
  free : (freeBlks a (tab a s.dev)).length + n = 7 * (a.cluCnt - 1)
  names : (dirOf a s.dev 0).map DirEntry.nameStr = (List.range n).map letter

theorem freeFidFrom_eq {t : FcfsTable} {k : ℤ} (hk : (t.entrs k).lnkCnt = 0) : ∀ {n : ℕ} {i : ℤ}, i ≤ k →
    k < i + n → (∀ j, i ≤ j → j < k → (t.entrs j).lnkCnt ≠ 0) → freeFidFrom t n i = k
  | 0, i, hle, hlt, _ => absurd hlt (by omega)
  | n + 1, i, hle, hlt, hused => by
    unfold freeFidFrom
    by_cases hz : (t.entrs i).lnkCnt = 0
    · rw [if_pos hz]
      by_contra hne
      exact hused i (le_refl i) (by omega) hz
    · have hne : i ≠ k := fun heq => hz (heq ▸ hk)
      rw [if_neg hz]
      exact freeFidFrom_eq hk (by omega) (by omega) fun j hj hjk => hused j (by omega) hjk

section Listed
variable {a : Args} {s : St} {n : ℕ}

theorem Formatted.listed (h : Formatted a s) : Listed a 0 s := by
  refine ⟨h.volOk, h.dirTree, h.ids, fun f h0 hf => ?_, fun f h0 => ⟨h.seqs f, ?_⟩, ?_, ?_⟩
  · exact ⟨fun _ => h0, fun _ => (h.entrs f h0 hf).lnk⟩
  · rw [h.fid]
    omega
  · exact length_freeBlks h.allFree
  · rw [h.dirOf_root]
    rfl

theorem Listed.statOk (h : Listed a n s) : StatOk a s := by
  intro path st _ hst
  rw [h.ids] at hst
  cases hst

theorem Listed.newName (h : Listed a n s) (hlt : n < 208) : NewName a s rootPath (letter n) 0 := by
  refine ⟨rfl, Through.nil 0, List.cons_ne_nil _ _, letter_ne hlt (by decide), letter_ne hlt (by decide), ?_⟩
  rw [h.names]
  intro hin
  obtain ⟨i, hi, heq⟩ := List.mem_map.mp hin
  have hin' := List.mem_range.mp hi
  have := letter_inj (by omega) hlt heq
  omega

variable (hn : Numbered a)
include hn

theorem Listed.freeFid (h : Listed a n s) (hfid : n + 1 < a.fsHead.tblCnt.toNat) :
    devFreeFid a s.fsTable = (n : ℤ) + 1 := by
  have hfids := hn.fids
  have hlinks := h.links
  refine freeFidFrom_eq ((hlinks _ (by omega) (by omega)).mpr (by omega)) (by omega) (by omega)
    fun j hj hjk hz => ?_
  have hlt := (hlinks j (by omega) (by omega)).mp hz
  omega

theorem Listed.forgotten (h : Listed a n s) (hfid : n + 1 < a.fsHead.tblCnt.toNat) :
    Forgotten s (devFreeFid a s.fsTable) (firstFree a s) := by
  rw [h.freeFid hn hfid]
  obtain ⟨hseq, hclrs⟩ := h.cold (n + 1) (by omega)
  refine ⟨fun heq => absurd heq hclrs, fun l hl => ?_⟩
  rw [hseq] at hl
  cases hl

/-- **One file more.** -/
theorem Listed.step (h : Listed a n s) (hlt : n < 208) (hfid : n + 1 < a.fsHead.tblCnt.toNat)
    (hblk : n < 7 * (a.cluCnt - 1)) (hroom : dirNeed a (n + 1) ≤ 7) : ∃ s', Listed a (n + 1) s' := by
  have hv := h.vol
  have hnew := h.newName hlt
  have h32 : (letter n).length < 32 := by
    show 1 < 32
    decide
  have hforget := h.forgotten hn hfid
  have hfree := h.freeFid hn hfid
  have hlen : (dirOf a s.dev 0).length = n := by
    have hcount := congrArg List.length h.names
    rwa [List.length_map, List.length_map, List.length_range] at hcount
  have hblks : freeBlks a (tab a s.dev) ≠ [] := by
    have hcount := h.free
    rintro hnil
    rw [hnil, List.length_nil] at hcount
    omega
  obtain ⟨rest, hrest⟩ := firstFree_cons hblks
  have hpar : fcfsGetPfid a s (joinPath rootPath (letter n)) = some (0, s) :=
    fcfsGetPfid_root hnew.slash (h.ids _)
  obtain ⟨t, hpar', hres⟩ := hnew.pfid h.tree h.statOk
  obtain ⟨-, rfl⟩ := Prod.mk.inj (Option.some.inj (hpar.symm.trans hpar'))
  have hok : MakeOk a s (joinPath rootPath (letter n)) := by
    refine ⟨by omega, hblks, fun p t hp => ?_⟩
    obtain ⟨rfl, -⟩ := Prod.mk.inj (Option.some.inj (hpar.symm.trans hp))
    refine ⟨Or.inl rfl, fun u hal => fits_of_le ?_⟩
    rw [hlen, length_nodesAt_root hal.agree.root]
    exact hroom
  have hno : NoGrowth a s 0 := by
    unfold NoGrowth
    rw [hlen, length_nodesAt_root hv.agree.root]
    exact hroom
  obtain ⟨s', hop, hmade⟩ := hv.create hn hok (hforget.first hv.mounted hok.first_mem) hpar
    (baseName_join rootPath hnew.slash) h32 0 0
  have hgrew := hnew.grew hv hn h.tree hok hforget h32 hpar hres hmade
  obtain ⟨-, p, t, name, m, r₁, u, r₂, hp, -, hcreate, hinit⟩ := opsMake_steps (Or.inl rfl) hop
  obtain ⟨rfl, rfl⟩ := Prod.mk.inj (Option.some.inj (hpar.symm.trans hp))
  obtain ⟨hids, hseqs, hclrs⟩ := caches_make hcreate hinit
  have hname := nameStr_newEntry 0 (devFreeFid a s.fsTable) (0o100000 ||| 0)
    h32 hnew.nul
  rw [hfree] at hseqs hclrs
  have htaken := freeBlks_taken hrest (u32_fid hok.fid (devFreeFid_free hn hok.fid).1).1 (hmade.tabs hno)
  refine ⟨s', hgrew.vol, hgrew.tree, fun q => by rw [hids]; exact h.ids q, fun f h0 hf => ?_, fun f hf => ?_,
    ?_, ?_⟩
  · by_cases heq : f = devFreeFid a s.fsTable
    · have hlnk := hmade.newborn.lnk
      rw [← heq] at hlnk
      rw [hlnk]
      exact ⟨fun h10 => absurd h10 (by decide), fun hgt => by omega⟩
    · rw [hmade.links f heq, h.links f h0 hf]
      omega
  · obtain ⟨hseq, hne⟩ := h.cold f (by omega)
    refine ⟨(hseqs f (by omega) (by omega)).trans hseq, ?_⟩
    rcases hclrs with heq | heq | heq
    · rw [heq]
      exact hne
    · omega
    · omega
  · have hcount := h.free
    rw [hrest, List.length_cons] at hcount
    rw [htaken]
    omega
  · rw [hmade.dir, List.map_append, h.names, List.range_succ, List.map_append, List.map_singleton, hname]
    rfl

/-- **Any number of files**, as long as there is room. -/
theorem Formatted.fill (h : Formatted a s) (hlt : n ≤ 208) (hfid : n < a.fsHead.tblCnt.toNat)
    (hblk : n ≤ 7 * (a.cluCnt - 1)) (hroom : dirNeed a n ≤ 7) : ∃ s', Listed a n s' := by
  have hL : 1024 ≤ a.lblkSz := h.mounted.geo.le_lblkSz
  have hfull : n * 64 + 4 ≤ 7 * a.lblkSz := by
    unfold dirNeed at hroom
    rw [toBlkCnt_eq (by omega)] at hroom
    exact (pages_le_iff (by omega)).mp (by omega)
  induction n with
  | zero => exact ⟨s, h.listed⟩
  | succ n ih =>
    have hpages : pages a.lblkSz (n * 64 + 4) ≤ 7 := (pages_le_iff (by omega)).mpr (by omega)
    have hroom' : dirNeed a n ≤ 7 := by
      unfold dirNeed
      rw [toBlkCnt_eq (by omega)]
      omega
    obtain ⟨t, ht⟩ := ih (by omega) (by omega) (by omega) hroom' (by omega)
    exact ht.step hn (by omega) hfid (by omega) hroom

end Listed

/-! ### Samples -/

/-- A new file in the root of seven clusters. -/
theorem allOrNothing_sevenNew :
    (MakeOk sevenArgs sevenFresh (joinPath rootPath [97]) →
      AllOrNothing sevenArgs sevenFresh 0 [97]
        (opsCreate sevenArgs 0 sevenFresh (joinPath rootPath [97]) 0)) ∧
    (AllOrNothing sevenArgs sevenFresh 0 [97]
        (opsCreate sevenArgs 0 sevenFresh (joinPath rootPath [97]) 0) →
      0 < devFreeFid sevenArgs sevenFresh.fsTable ∧ 0 < devFreeCluster sevenArgs sevenFresh.fsBitmap ∧
        ((0 : ℤ) = 0 → freeBlks sevenArgs (tab sevenArgs sevenFresh.dev) ≠ [] →
          MakeOk sevenArgs sevenFresh (joinPath rootPath [97]))) :=
  allOrNothing_of_makeOk formatted_sevenFresh.volOk numbered_seven formatted_sevenFresh.dirTree
    formatted_sevenFresh.statOk (formatted_sevenFresh.forgotten (by decide))
    (formatted_sevenFresh.newName (by decide) (by decide) (by decide)) (Or.inl rfl) (by decide)

theorem numbered_wide : Numbered wideArgs := ⟨by decide, by decide⟩

/-- A root with 111 entries is full, and the next file is made and is in no directory. -/
theorem not_allOrNothing_wide : ¬ ∀ (a : Args) (s : St) (D : Path) (name : List UInt8) (p : ℤ)
    (now : UInt64) (mode : UInt32), VolOk a s → Numbered a → DirTree a s → StatOk a s →
      (∀ f : ℤ, 0 < f → f < tableLen → ¬ Live s.fsTable f → s.mapSeq f = none ∧ s.clrsCache.fid ≠ f) →
      NewName a s D name p → name.length < 32 →
      AllOrNothing a s p name (opsCreate a now s (joinPath D name) mode) := by
  intro h
  have hL : wideArgs.lblkSz = 1024 := by decide
  have hneed : ∀ n, dirNeed wideArgs n = pages 1024 (n * 64 + 4) := fun n => by
    unfold dirNeed
    rw [toBlkCnt_eq (by omega), hL]
  obtain ⟨s, hs⟩ : ∃ s, Listed wideArgs 111 s :=
    formatted_wide.fill numbered_wide (by decide) (by decide) (by decide) (by rw [hneed]; decide)
  have hforget := hs.forgotten numbered_wide (by decide)
  have hnew := hs.newName (by decide)
  have hblk : freeBlks wideArgs (tab wideArgs s.dev) ≠ [] := by
    have hcount := hs.free
    rw [cluCnt_wideArgs] at hcount
    rintro hnil
    rw [hnil, List.length_nil] at hcount
    omega
  have hcold : ∀ f : ℤ, 0 < f → f < tableLen → ¬ Live s.fsTable f →
      s.mapSeq f = none ∧ s.clrsCache.fid ≠ f := by
    intro f h0 hf hdead
    refine hs.cold f ((hs.links f h0 hf).mp ?_)
    by_contra hlnk
    exact hdead ⟨by omega, hf, hlnk⟩
  have hall := h wideArgs s rootPath (letter 111) 0 0 0 hs.vol numbered_wide hs.tree hs.statOk hcold hnew
    (by decide)
  have hroom := hall.room hs.vol numbered_wide hs.tree hs.statOk hforget hnew (Or.inl rfl) rfl hblk
  have hlen : (dirOf wideArgs s.dev 0).length = 111 := by
    have hcount := congrArg List.length hs.names
    rwa [List.length_map, List.length_map, List.length_range] at hcount
  rw [hlen, hneed] at hroom
  exact absurd hroom (by decide)

end Fcfs.Vol
