import Fcfs.Vol.ClrList

/-! # Appending to a cluster list

`dev_tbl_clrs_add` and the loops of `dev_file_mem_clrs` around it. What they do to the volume is
said by `Ext`, which composes: at most one wholly free cluster is claimed, no cluster table changes
but the claimed one, and no block is written but the first six of the address cluster. The list in
the cache grows by the cluster if it has room (`pushClr`); as long as the words fit into the six
blocks, the stored list is the loaded one. -/

namespace Fcfs.Vol

open Lib.Bytes

/-- **What keeping the cluster list of `f` may do to the volume.** -/
structure Ext (a : Args) (f : ℤ) (s s' : St) : Prop where
  mounted : Mounted a s'.dev
  agree : Agree a s'.dev s'.fsBitmap
  seq : s'.mapSeq = s.mapSeq
  ids : s'.mapFid = s.mapFid
  hash : s'.fsTable.hashsum = s.fsTable.hashsum
  others : ∀ g, g ≠ f → s'.fsTable.entrs g = s.fsTable.entrs g
  lnk : (s'.fsTable.entrs f).lnkCnt = (s.fsTable.entrs f).lnkCnt
  keep : secAddr s.fsTable f ≠ 0 → secAddr s'.fsTable f = secAddr s.fsTable f
  claim : secAddr s.fsTable f = 0 → secAddr s'.fsTable f ≠ 0 → SecClu a (secAddr s'.fsTable f) ∧
    AllFree (tab a s.dev (secAddr s'.fsTable f)) ∧ tab a s'.dev (secAddr s'.fsTable f) = claimed
  tabs : ∀ c, tab a s'.dev c = tab a s.dev c ∨
    secAddr s.fsTable f = 0 ∧ c = secAddr s'.fsTable f ∧ 1 ≤ c ∧ c < a.cluCnt ∧
      AllFree (tab a s.dev c) ∧ tab a s'.dev c = claimed
  blks : ∀ c b, data a s'.dev c b = data a s.dev c b ∨ c = secAddr s'.fsTable f ∧ c ≠ 0 ∧ b ≤ 6
  log : ∃ new, devLog s' = new ++ devLog s ∧
    ∀ e ∈ new, e.1 = secAddr s'.fsTable f ∧ e.1 ≠ 0 ∧ e.2 ≤ 6

theorem Ext.refl {a : Args} {f : ℤ} {s : St} (hm : Mounted a s.dev) (hag : Agree a s.dev s.fsBitmap) :
    Ext a f s s :=
  ⟨hm, hag, rfl, rfl, rfl, fun _ _ => rfl, rfl, fun _ => rfl, fun hz hnz => absurd hz hnz,
    fun _ => Or.inl rfl, fun _ _ => Or.inl rfl, [], rfl, fun _ he => absurd he List.not_mem_nil⟩

theorem Ext.trans {a : Args} {f : ℤ} {s t u : St} (h : Ext a f s t) (h' : Ext a f t u) :
    Ext a f s u := by
  have hkeep : secAddr t.fsTable f ≠ 0 → secAddr u.fsTable f = secAddr t.fsTable f := h'.keep
  refine ⟨h'.mounted, h'.agree, h'.seq.trans h.seq, h'.ids.trans h.ids, h'.hash.trans h.hash,
    fun g hg => (h'.others g hg).trans (h.others g hg), h'.lnk.trans h.lnk, fun hs => ?_,
    fun hz hnz => ?_, fun c => ?_, fun c b => ?_, ?_⟩
  · have hst := h.keep hs
    rw [hkeep (by rw [hst]; exact hs), hst]
  · by_cases ht : secAddr t.fsTable f = 0
    · obtain ⟨hclu, hfree, hcl⟩ := h'.claim ht hnz
      have hpos := hclu.pos
      rcases h.tabs (secAddr u.fsTable f) with heq | ⟨-, hc, -⟩
      · exact ⟨hclu, heq ▸ hfree, hcl⟩
      · omega
    · have hst := hkeep ht
      obtain ⟨hclu, hfree, hcl⟩ := h.claim hz ht
      rw [hst]
      rcases h'.tabs (secAddr t.fsTable f) with heq | ⟨h0, -⟩
      · exact ⟨hclu, hfree, heq.trans hcl⟩
      · exact absurd h0 ht
  · rcases h'.tabs c with heq' | ⟨hz', hc', h1', hlt', hfree', hcl'⟩
    · rcases h.tabs c with heq | ⟨hz, hc, h1, hlt, hfree, hcl⟩
      · exact Or.inl (heq'.trans heq)
      · have hst := hkeep (by omega)
        exact Or.inr ⟨hz, by omega, h1, hlt, hfree, heq'.trans hcl⟩
    · rcases h.tabs c with heq | ⟨hz, hc, h1, hlt, hfree, hcl⟩
      · refine Or.inr ⟨?_, hc', h1', hlt', heq ▸ hfree', hcl'⟩
        by_contra hs
        exact hs ((h.keep hs).symm.trans hz')
      · omega
  · rcases h'.blks c b with heq' | hb'
    · rcases h.blks c b with heq | ⟨hc, h0, hb⟩
      · exact Or.inl (heq'.trans heq)
      · have hst := hkeep (by omega)
        exact Or.inr ⟨by omega, h0, hb⟩
    · exact Or.inr hb'
  · obtain ⟨new, hlog, hnew⟩ := h.log
    obtain ⟨new', hlog', hnew'⟩ := h'.log
    refine ⟨new' ++ new, by rw [hlog', hlog, List.append_assoc], fun e he => ?_⟩
    rcases List.mem_append.mp he with he | he
    · exact hnew' e he
    · obtain ⟨h1, h0, h6⟩ := hnew e he
      have hst := hkeep (by omega)
      exact ⟨by omega, h0, h6⟩

/-! ### Table entries -/

section SetClr
variable (t : FcfsTable) (f : ℤ) (i : ℕ) (id : ℤ)

@[simp] theorem setClr_hashsum : (t.setClr f i id).hashsum = t.hashsum := rfl

theorem setClr_others {g : ℤ} (h : g ≠ f) : (t.setClr f i id).entrs g = t.entrs g :=
  Function.update_of_ne h _ _

@[simp] theorem setClr_lnkCnt : ((t.setClr f i id).entrs f).lnkCnt = (t.entrs f).lnkCnt := by
  unfold FcfsTable.setClr
  simp

theorem setClr_clrs (j : ℕ) :
    ((t.setClr f i id).entrs f).clrs j = if j = i then u16 id else (t.entrs f).clrs j := by
  unfold FcfsTable.setClr
  simp [Function.update_apply]

end SetClr

theorem getD_append_singleton (cl : List ℤ) (c : ℤ) (i : ℕ) :
    (cl ++ [c]).getD i 0 = if i = cl.length then c else cl.getD i 0 := by
  rw [List.getD_eq_getElem?_getD, List.getD_eq_getElem?_getD]
  split_ifs with h
  · subst h
    simp
  · rcases Nat.lt_or_ge i cl.length with hlt | hge
    · rw [List.getElem?_append_left hlt]
    · rw [List.getElem?_eq_none (by simp; omega), List.getElem?_eq_none hge]

/-- The list after `dev_tbl_clrs_add`. -/
def pushClr (a : Args) (cl : List ℤ) (c : ℤ) : List ℤ :=
  if cl.length < s1Len a then cl ++ [c] else cl

/-- There is a wholly free cluster behind the root's. -/
def Room (a : Args) (d : Dev) : Prop := ∃ c : ℤ, 1 ≤ c ∧ c < a.cluCnt ∧ AllFree (tab a d c)

/-- The state after a cluster has been put into a direct slot. -/
def dirAdded (a : Args) (s : St) (f id : ℤ) : St :=
  let c := s.clrsCache
  { s with
    dev := putTable a s.dev (s.fsTable.setClr f c.s0Cnt id)
    fsTable := s.fsTable.setClr f c.s0Cnt id
    clrsCache := { c with s0Cl := Function.update c.s0Cl c.s0Cnt (u32 id), s0Cnt := c.s0Cnt + 1 } }

/-- The cache after a cluster has been put into the second-level array. -/
def indPush (c : ClrsCache) (id : ℤ) : ClrsCache :=
  { c with s1Cl := Function.update c.s1Cl c.s1Cnt (u32 id), s1Cnt := c.s1Cnt + 1 }

/-- The array of the file is saved as the cache has it. -/
def Saved (a : Args) (s : St) (f : ℤ) : Prop :=
  ∀ k < 6 * a.lblkSz, secBytes a s.dev (secAddr s.fsTable f) k = secBuf a s.clrsCache k

section Add
variable {a : Args} {f id : ℤ} {cl : List ℤ} (h1 : 1 ≤ id) (hid : id ≤ 65535)
include h1 hid

theorem toNat_u16_id : ((u16 id).toNat : ℤ) = id := by
  rw [toNat_u16_of_lt (by omega) (by omega)]
  omega

theorem toNat_u32_id : ((u32 id).toNat : ℤ) = id := by
  rw [toNat_u32_of_lt (by omega) (by omega)]
  omega

theorem add_direct {s : St} (hm : Mounted a s.dev) (hag : Agree a s.dev s.fsBitmap)
    (hs : Slotted a s.fsTable f cl) (hl : Loaded s.clrsCache f cl)
    (hlt : cl.length < 13) (hs1 : 13 ≤ s1Len a) :
    Ext a f s (dirAdded a s f id) ∧ Slotted a (dirAdded a s f id).fsTable f (cl ++ [id]) ∧
      Loaded (dirAdded a s f id).clrsCache f (cl ++ [id]) := by
  have h0 : s.clrsCache.s0Cnt = cl.length := by have := hl.dir.1; omega
  have hlen : (cl ++ [id]).length = cl.length + 1 := by simp
  have hsec : secAddr (s.fsTable.setClr f s.clrsCache.s0Cnt id) f = secAddr s.fsTable f := by
    unfold secAddr
    rw [setClr_clrs, if_neg (by omega)]
  obtain ⟨ht, hd⟩ := views_putTable hm (s.fsTable.setClr f s.clrsCache.s0Cnt id)
  refine ⟨?_, ?_, ?_⟩
  · exact ⟨hm.putTable _, hag.congr ht, rfl, rfl, rfl, fun g hg => setClr_others _ _ _ _ hg,
      setClr_lnkCnt _ _ _ _, fun _ => hsec, fun hz hnz => absurd (hsec.trans hz) hnz,
      fun c => Or.inl (congrFun ht c),
      fun c b => Or.inl (congrFun (congrFun hd c) b), [], rfl, fun _ he => absurd he List.not_mem_nil⟩
  · refine ⟨fun i hi => ?_, fun c hc => ?_, by omega, fun _ => ?_, fun h => by omega⟩
    · show ((((s.fsTable.setClr f s.clrsCache.s0Cnt id).entrs f).clrs i).toNat : ℤ) = _
      rw [setClr_clrs, getD_append_singleton, h0]
      split_ifs
      · exact toNat_u16_id h1 hid
      · exact hs.slots i hi
    · rcases List.mem_append.mp hc with hc | hc
      · exact hs.pos c hc
      · rw [List.mem_singleton.mp hc]
        exact h1
    · exact hsec.trans (hs.short (by omega))
  · have hind := hl.ind.1
    refine ⟨hl.fid, ⟨?_, fun i hi => ?_⟩, ⟨?_, fun j hj => by omega⟩⟩
    · show s.clrsCache.s0Cnt + 1 = _
      omega
    · show ((Function.update s.clrsCache.s0Cl s.clrsCache.s0Cnt (u32 id) i).toNat : ℤ) = _
      rw [getD_append_singleton, h0]
      by_cases hic : i = cl.length
      · rw [if_pos hic, hic, Function.update_self]
        exact toNat_u32_id h1 hid
      · rw [if_neg hic, Function.update_of_ne hic]
        exact hl.dir.2 i (by omega)
    · show s.clrsCache.s1Cnt = _
      omega

/-- A cluster for the second-level array, the address cluster being there: the state before the
words are saved. -/
theorem add_indirect {s : St} (hm : Mounted a s.dev) (hag : Agree a s.dev s.fsBitmap)
    (hslots : ∀ i < 13, (((s.fsTable.entrs f).clrs i).toNat : ℤ) = cl.getD i 0)
    (hpos : ∀ c ∈ cl, 1 ≤ c) (hsec : SecClu a (secAddr s.fsTable f))
    (hfid : s.clrsCache.fid = f) (hdir : DirOk s.clrsCache cl) (hind : IndOk s.clrsCache cl)
    (hge : 13 ≤ cl.length) (hlt : cl.length < s1Len a) :
    ∃ d, devTblSaveSec a { s with clrsCache := indPush s.clrsCache id } (secAddr s.fsTable f) =
        some (0, { s with dev := d, clrsCache := indPush s.clrsCache id }) ∧
      Ext a f s { s with dev := d, clrsCache := indPush s.clrsCache id } ∧
      Slotted a s.fsTable f (cl ++ [id]) ∧ Loaded (indPush s.clrsCache id) f (cl ++ [id]) ∧
      Saved a { s with dev := d, clrsCache := indPush s.clrsCache id } f := by
  have hsec1 := hsec.pos
  have hlen : (cl ++ [id]).length = cl.length + 1 := by simp
  obtain ⟨d, hop, hm', ht, hd, hbytes, hlog⟩ := devTblSaveSec_eq
    (s := { s with clrsCache := indPush s.clrsCache id }) hm (by omega) hsec.lt
  have hs : Slotted a s.fsTable f (cl ++ [id]) := by
    refine ⟨fun i hi => ?_, fun c hc => ?_, by omega, fun h => by omega, fun _ => hsec⟩
    · rw [getD_append_singleton, if_neg (by omega)]
      exact hslots i hi
    · rcases List.mem_append.mp hc with hc | hc
      · exact hpos c hc
      · rw [List.mem_singleton.mp hc]
        exact h1
  have hind' : IndOk (indPush s.clrsCache id) (cl ++ [id]) := by
    have hcnt := hind.1
    refine ⟨?_, fun j hj => ?_⟩
    · show s.clrsCache.s1Cnt + 1 = _
      omega
    · show ((Function.update s.clrsCache.s1Cl s.clrsCache.s1Cnt (u32 id) j).toNat : ℤ) = _
      rw [getD_append_singleton, hcnt]
      by_cases hjc : j = cl.length - 13
      · rw [if_pos (by omega), hjc, Function.update_self]
        exact toNat_u32_id h1 hid
      · rw [if_neg (by omega), Function.update_of_ne hjc]
        exact hind.2 j (by omega)
  refine ⟨d, hop, ?_, hs, ⟨hfid, ⟨?_, fun i hi => ?_⟩, hind'⟩, hbytes⟩
  · refine ⟨hm', hag.congr ht, rfl, rfl, rfl, fun _ _ => rfl, rfl, fun _ => rfl,
      fun hz hnz => absurd hz hnz, fun c => Or.inl (congrFun ht c), fun c b => ?_, ⟨_, hlog, fun e he => ?_⟩⟩
    · by_cases hcb : c = secAddr s.fsTable f ∧ 1 ≤ b ∧ b ≤ 6
      · exact Or.inr ⟨hcb.1, by omega, hcb.2.2⟩
      · exact Or.inl (hd c b hcb)
    · unfold secLog at he
      obtain ⟨i, hi, rfl⟩ := List.mem_map.mp (List.mem_reverse.mp he)
      rw [List.mem_range] at hi
      exact ⟨rfl, by simp only; omega, hi⟩
  · show s.clrsCache.s0Cnt = _
    have := hdir.1
    omega
  · rw [getD_append_singleton, if_neg (by omega)]
    exact hdir.2 i (by omega)

end Add

theorem clrsSecAddr_eq {a : Args} {f : ℤ} {s : St} (hsm : a.cluCnt ≤ 65535) (hm : Mounted a s.dev)
    (hag : Agree a s.dev s.fsBitmap) (h0 : s.clrsCache.s1Cnt = 0) (hsec : secAddr s.fsTable f = 0)
    (hroom : Room a s.dev) :
    ∃ u, clrsSecAddr a s f = some u ∧ Ext a f s u ∧ SecClu a (secAddr u.fsTable f) ∧
      (∀ i < 13, (u.fsTable.entrs f).clrs i = (s.fsTable.entrs f).clrs i) ∧
      u.clrsCache = { s.clrsCache with s1Cl := fun _ => 0, s1Cnt := 0 } := by
  obtain ⟨c, hc1, hc, hfree⟩ := hroom
  obtain ⟨m, hfull, hm1, hmc, hmfree⟩ := devFullFreeCluster_eq hm hag hc1 hc hfree
  obtain ⟨d, bm, hclaim, hmd, htab, hdata, hlog, hbit⟩ := devClustClaim_eq hm (show 0 ≤ m by omega) hmc
  have hu16 : ((u16 m).toNat : ℤ) = m := toNat_u16_id hm1 (by omega)
  have hsec' : secAddr (s.fsTable.setClr f 13 m) f = m := by
    unfold secAddr
    rw [setClr_clrs, if_pos rfl, hu16]
  obtain ⟨ht, hd⟩ := views_putTable hmd (s.fsTable.setClr f 13 m)
  have htaken : taken (claimed) = true := by decide
  refine ⟨{ s with
    dev := putTable a d (s.fsTable.setClr f 13 m), fsBitmap := bm
    fsTable := s.fsTable.setClr f 13 m
    clrsCache := { s.clrsCache with s1Cl := fun _ => 0, s1Cnt := 0 } }, ?_, ?_, ?_, ?_, rfl⟩
  · unfold clrsSecAddr devTblClaimSecAddr
    rw [if_pos h0]
    refine Option.bind_eq_some_iff.mpr ⟨_, Option.bind_eq_some_iff.mpr ⟨_, hfull,
      Option.bind_eq_some_iff.mpr ⟨_, hclaim, rfl⟩⟩, ?_⟩
    dsimp only
    rw [devWriteTable_dev hmd]
    rfl
  · refine ⟨hmd.putTable _, ?_, rfl, rfl, rfl, fun g hg => setClr_others _ _ _ _ hg,
      setClr_lnkCnt _ _ _ _, fun hne => absurd hsec hne, fun _ _ => ?_, fun x => ?_,
      fun x b => Or.inl ?_, [(m, 0)], hlog, fun e he => ?_⟩
    · exact (hag.update (by omega) htab (by rw [hbit]; rfl)).congr ht
    · show SecClu a (secAddr (s.fsTable.setClr f 13 m) f) ∧
        AllFree (tab a s.dev (secAddr (s.fsTable.setClr f 13 m) f)) ∧
        tab a (putTable a d (s.fsTable.setClr f 13 m)) (secAddr (s.fsTable.setClr f 13 m) f) = _
      rw [hsec', ht, htab, Function.update_self]
      exact ⟨⟨hm1, hmc⟩, hmfree, rfl⟩
    · show tab a (putTable a d (s.fsTable.setClr f 13 m)) x = _ ∨ _
      rw [ht, htab]
      by_cases hx : x = m
      · rw [hx, Function.update_self]
        exact Or.inr ⟨hsec, hsec'.symm, hm1, hmc, hmfree, rfl⟩
      · rw [Function.update_of_ne hx]
        exact Or.inl rfl
    · exact (congrFun (congrFun hd x) b).trans (congrFun (congrFun hdata x) b)
    · obtain rfl := List.mem_singleton.mp he
      exact ⟨hsec'.symm, by simp only; omega, Nat.zero_le _⟩
  · show SecClu a (secAddr (s.fsTable.setClr f 13 m) f)
    rw [hsec']
    exact ⟨hm1, hmc⟩
  · intro i hi
    show ((s.fsTable.setClr f 13 m).entrs f).clrs i = _
    rw [setClr_clrs, if_neg (by omega)]

theorem secCap_lt {a : Args} (hL : 1024 ≤ a.lblkSz) : 13 + secCap a < s1Len a := by
  unfold secCap s1Len
  omega

theorem Saved.secWords {a : Args} {s : St} {f : ℤ} {cl : List ℤ} (hm : Mounted a s.dev)
    (h : Saved a s f) (hl : Loaded s.clrsCache f cl) (hcap : cl.length ≤ 13 + secCap a) :
    SecWords a s.dev (secAddr s.fsTable f) (cl.drop 13) := by
  have hdrop : (cl.drop 13).length = cl.length - 13 := List.length_drop
  refine secWords_of_secBuf hm.geo.le_lblkSz hm.geo.lblkSz_lt h ?_ (by omega) fun j hj => ?_
  · rw [hdrop]
    exact hl.ind.1
  · have hj' := hl.ind.2 j (by omega)
    rw [List.getD_eq_getElem?_getD, List.getElem?_drop, ← List.getD_eq_getElem?_getD]
    exact hj'

section Counted
variable {a : Args} {f id : ℤ} {cl : List ℤ} {s : St} {c : ClrsCache}

/-- **`dev_tbl_clrs_add` appends to a list that has room**, once `dev_tbl_clrs_cnt` has loaded it. -/
theorem devTblClrsAdd_room (hsm : a.cluCnt ≤ 65535) (h1 : 1 ≤ id) (hid : id ≤ 65535)
    (hm : Mounted a s.dev) (hag : Agree a s.dev s.fsBitmap)
    (hcnt : devTblClrsCnt a s f = some ((cl.length : ℤ), { s with clrsCache := c }))
    (hs : Slotted a s.fsTable f cl) (hl : Loaded c f cl) (hroom : cl.length = 13 → Room a s.dev)
    (hfit : cl.length < s1Len a) :
    ∃ s', devTblClrsAdd a s f id = some (0, s') ∧ Ext a f s s' ∧
      Slotted a s'.fsTable f (cl ++ [id]) ∧ Loaded s'.clrsCache f (cl ++ [id]) ∧
      (13 < (cl ++ [id]).length → Saved a s' f) := by
  have hcap := secCap_lt (a := a) hm.geo.le_lblkSz
  have hload : Ext a f s { s with clrsCache := c } :=
    ⟨hm, hag, rfl, rfl, rfl, fun _ _ => rfl, rfl, fun _ => rfl, fun hz hnz => absurd hz hnz,
      fun _ => Or.inl rfl, fun _ _ => Or.inl rfl, [], rfl, fun _ he => absurd he List.not_mem_nil⟩
  by_cases hlt : cl.length < 13
  · obtain ⟨hext, hs', hl'⟩ := add_direct (s := { s with clrsCache := c }) h1 hid hm hag hs hl hlt (by omega)
    refine ⟨dirAdded a { s with clrsCache := c } f id, ?_, hload.trans hext, hs', hl', fun h => ?_⟩
    · unfold devTblClrsAdd
      refine Option.bind_eq_some_iff.mpr ⟨_, hcnt, ?_⟩
      dsimp only
      rw [if_pos (by omega), devWriteTable_dev hm]
      · rfl
      · rfl
    · rw [List.length_append, List.length_singleton] at h
      omega
  · -- the address cluster, claimed now or there before
    obtain ⟨u, hsecop, hext, hsec, hslots, hcache⟩ : ∃ u,
        clrsSecAddr a { s with clrsCache := c } f = some u ∧ Ext a f { s with clrsCache := c } u ∧
        SecClu a (secAddr u.fsTable f) ∧
        (∀ i < 13, (u.fsTable.entrs f).clrs i = (s.fsTable.entrs f).clrs i) ∧
        (u.clrsCache.fid = f ∧ DirOk u.clrsCache cl ∧ IndOk u.clrsCache cl) := by
      by_cases h13 : cl.length = 13
      · have h0 : c.s1Cnt = 0 := by have := hl.ind.1; omega
        obtain ⟨u, hu, hext, hsec, hslots, hcache⟩ := clrsSecAddr_eq
          (s := { s with clrsCache := c }) hsm hm hag h0 (hs.short (by omega)) (hroom h13)
        refine ⟨u, hu, hext, hsec, hslots, ?_, ?_, ?_⟩
        · rw [hcache]; exact hl.fid
        · rw [hcache]; exact hl.dir
        · rw [hcache]
          exact ⟨by simp only; omega, fun j hj => by omega⟩
      · have hnz : c.s1Cnt ≠ 0 := by have := hl.ind.1; omega
        exact ⟨{ s with clrsCache := c }, if_neg hnz, Ext.refl hm hag, hs.long (by omega),
          fun _ _ => rfl, hl.fid, hl.dir, hl.ind⟩
    obtain ⟨hfid, hdir, hind⟩ := hcache
    obtain ⟨d, hsave, hext', hs', hl', hsaved⟩ := add_indirect h1 hid hext.mounted hext.agree
      (fun i hi => by rw [hslots i hi]; exact hs.slots i hi) hs.pos hsec hfid hdir hind
      (by omega) hfit
    refine ⟨{ u with dev := d, clrsCache := indPush u.clrsCache id }, ?_,
      hload.trans (hext.trans hext'), hs', hl', fun _ => hsaved⟩
    unfold devTblClrsAdd
    refine Option.bind_eq_some_iff.mpr ⟨_, hcnt, ?_⟩
    dsimp only
    rw [if_neg (by omega), if_pos (by omega)]
    exact Option.bind_eq_some_iff.mpr ⟨_, hsecop, Option.bind_eq_some_iff.mpr ⟨_, hsave, rfl⟩⟩

/-- `dev_tbl_clrs_add` refuses when the list is as long as it can get. -/
theorem devTblClrsAdd_full (hL : 1024 ≤ a.lblkSz)
    (hcnt : devTblClrsCnt a s f = some ((cl.length : ℤ), { s with clrsCache := c }))
    (hge : s1Len a ≤ cl.length) :
    devTblClrsAdd a s f id = some (-1, { s with clrsCache := c }) := by
  have hcap := secCap_lt (a := a) hL
  unfold devTblClrsAdd
  refine Option.bind_eq_some_iff.mpr ⟨_, hcnt, ?_⟩
  dsimp only
  rw [if_neg (by omega), if_neg (by omega)]

end Counted

/-- **`dev_tbl_clrs_add` appends to the list.** -/
theorem devTblClrsAdd_eq {a : Args} {f id : ℤ} {cl : List ℤ} {s : St} (hsm : a.cluCnt ≤ 65535)
    (h1 : 1 ≤ id) (hid : id < a.cluCnt) (hm : Mounted a s.dev) (hag : Agree a s.dev s.fsBitmap)
    (han : Anchored a s.fsTable f cl) (hl : Loaded s.clrsCache f cl) (hne : cl ≠ [])
    (hroom : cl.length = 13 → Room a s.dev) :
    ∃ r s', devTblClrsAdd a s f id = some (r, s') ∧ Ext a f s s' ∧
      Anchored a s'.fsTable f (pushClr a cl id) ∧ Loaded s'.clrsCache f (pushClr a cl id) ∧
      ((pushClr a cl id).length ≤ 13 + secCap a →
        Stored a s'.dev s'.fsTable f (pushClr a cl id)) := by
  have hcap := secCap_lt (a := a) hm.geo.le_lblkSz
  have hcnt := devTblClrsCnt_of_loaded (a := a) han.slotted hl hne (han.slotted.length_lt hm)
  have hrange : ∀ c ∈ cl ++ [id], c < a.cluCnt := by
    intro c hc
    rcases List.mem_append.mp hc with hc | hc
    · exact (han.range c hc).2
    · rw [List.mem_singleton.mp hc]
      exact hid
  unfold pushClr
  by_cases hfit : cl.length < s1Len a
  · obtain ⟨s', hop, hext, hs', hl', hsaved⟩ := devTblClrsAdd_room (c := s.clrsCache) hsm h1 (by omega)
      hm hag hcnt han.slotted hl hroom hfit
    rw [if_pos hfit]
    exact ⟨0, s', hop, hext, hs'.anchored hrange, hl', fun hc => ⟨hs'.anchored hrange, hc,
      fun hlong => (hsaved hlong).secWords hext.mounted hl' hc⟩⟩
  · rw [if_neg hfit]
    exact ⟨-1, s, devTblClrsAdd_full (c := s.clrsCache) hm.geo.le_lblkSz hcnt (by omega),
      Ext.refl hm hag, han, hl, fun h => by omega⟩

/-! ### The clusters of new blocks -/

/-- The list after `dev_file_mem_clrs` has seen a cluster. -/
def noteClr (a : Args) (cl : List ℤ) (c : ℤ) : List ℤ := if c ∈ cl then cl else pushClr a cl c

theorem length_le_noteClr (a : Args) (cl : List ℤ) (c : ℤ) : cl.length ≤ (noteClr a cl c).length := by
  unfold noteClr pushClr
  split_ifs <;> simp

theorem length_le_foldl_noteClr (a : Args) (l cl : List ℤ) :
    cl.length ≤ (l.foldl (noteClr a) cl).length := by
  induction l generalizing cl with
  | nil => exact le_refl _
  | cons c l ih => exact (length_le_noteClr a cl c).trans (ih _)

theorem length_foldl_noteClr_le (a : Args) (l cl : List ℤ) :
    (l.foldl (noteClr a) cl).length ≤ cl.length + l.length := by
  induction l generalizing cl with
  | nil => exact le_refl _
  | cons c l ih =>
    have hone : (noteClr a cl c).length ≤ cl.length + 1 := by
      unfold noteClr pushClr
      split_ifs <;> simp
    have hrest := ih (noteClr a cl c)
    rw [List.foldl_cons, List.length_cons]
    omega

theorem prefix_foldl_noteClr (a : Args) (l cl : List ℤ) : cl <+: l.foldl (noteClr a) cl := by
  induction l generalizing cl with
  | nil => exact List.prefix_rfl
  | cons c l ih =>
    refine List.IsPrefix.trans ?_ (ih (noteClr a cl c))
    unfold noteClr pushClr
    split_ifs
    · exact List.prefix_rfl
    · exact List.prefix_append _ _
    · exact List.prefix_rfl

/-- **In a list that never gets full every cluster is noted.** -/
theorem mem_foldl_noteClr {a : Args} {l cl : List ℤ} (hlt : (l.foldl (noteClr a) cl).length < s1Len a)
    (c : ℤ) (hc : c ∈ l) : c ∈ l.foldl (noteClr a) cl := by
  induction l generalizing cl with
  | nil => cases hc
  | cons x l ih =>
    rw [List.foldl_cons] at hlt ⊢
    rcases List.mem_cons.mp hc with rfl | hc
    · refine (prefix_foldl_noteClr a l _).subset ?_
      have hle := length_le_foldl_noteClr a l (noteClr a cl c)
      have hle' := length_le_noteClr a cl c
      unfold noteClr pushClr
      split_ifs with hin
      · exact hin
      · exact List.mem_append_right _ (List.mem_singleton_self c)
      · omega
    · exact ih hlt hc

theorem nodup_foldl_noteClr (a : Args) (l : List ℤ) {cl : List ℤ} (hnd : cl.Nodup) :
    (l.foldl (noteClr a) cl).Nodup := by
  induction l generalizing cl with
  | nil => exact hnd
  | cons c l ih =>
    refine ih ?_
    unfold noteClr pushClr
    split_ifs with hin
    · exact hnd
    · exact hnd.append (List.nodup_singleton c) (by simpa using hin)
    · exact hnd

theorem noteClr_ne_nil {a : Args} {cl : List ℤ} (h : cl ≠ []) (c : ℤ) : noteClr a cl c ≠ [] := by
  have hlen := length_le_noteClr a cl c
  have hpos := List.length_pos_iff.mpr h
  exact List.length_pos_iff.mp (by omega)

/-- The count kept by `dev_file_mem_clrs` is the length of the list, or more once the list is as
long as it can get. -/
def CntOk (a : Args) (cl : List ℤ) (n : ℤ) : Prop :=
  n = cl.length ∨ cl.length = s1Len a ∧ (cl.length : ℤ) ≤ n

section Mem
variable {a : Args} {f : ℤ} (hsm : a.cluCnt ≤ 65535)
include hsm

omit hsm in
theorem memClr_eq {cl : List ℤ} {s : St} (hm : Mounted a s.dev)
    (han : Anchored a s.fsTable f cl) (hl : Loaded s.clrsCache f cl) {cid : ℤ} (h1 : 1 ≤ cid)
    (n : ℕ) : ∀ {j : ℕ}, CntOk a cl (j + n : ℕ) →
      memClr a f cid n j s = some (decide (cid ∈ cl.drop j), s) := by
  have hcap := secCap_lt (a := a) hm.geo.le_lblkSz
  induction n with
  | zero =>
    intro j hj
    have hnil : cl.drop j = [] := by
      rw [List.drop_eq_nil_iff]
      rcases hj with hj | ⟨-, hj⟩ <;> omega
    unfold memClr
    rw [hnil]
    rfl
  | succ n ih =>
    intro j hj
    unfold memClr
    have hnext : CntOk a cl (j + 1 + n : ℕ) := by
      rw [show j + 1 + n = j + (n + 1) by omega]
      exact hj
    have hrec := ih hnext
    by_cases hjl : j < cl.length
    · have hget := devTblClrsGet_eq hl (han.small hm.cluCnt_lt) hjl (lt_of_lt_of_le hjl han.bound)
      refine Option.bind_eq_some_iff.mpr ⟨_, hget, ?_⟩
      have hmem : cid ∈ cl.drop j ↔ cid = cl[j] ∨ cid ∈ cl.drop (j + 1) := by
        rw [List.drop_eq_getElem_cons hjl, List.mem_cons]
      dsimp only
      rw [List.getD_eq_getElem _ _ hjl]
      by_cases heq : cl[j] = cid
      · rw [if_pos heq, decide_eq_true (hmem.mpr (Or.inl heq.symm))]
      · have hiff : cid ∈ cl.drop j ↔ cid ∈ cl.drop (j + 1) :=
          hmem.trans (or_iff_right (Ne.symm heq))
        rw [if_neg heq, hrec, decide_eq_decide.mpr hiff]
    · have hs1 : s1Len a ≤ j := by
        rcases hj with hj | ⟨hj, -⟩ <;> omega
      refine Option.bind_eq_some_iff.mpr ⟨_, devTblClrsGet_of_le hl.fid (by omega) hs1, ?_⟩
      dsimp only
      rw [if_neg (by omega), hrec, List.drop_eq_nil_of_le (by omega), List.drop_eq_nil_of_le (by omega)]

/-- **`dev_file_mem_clrs` notes the clusters of the new blocks.** -/
theorem devFileMemClrs_eq (inf : List BlkInfo) (hcids : ∀ b ∈ inf, 1 ≤ b.cid ∧ b.cid < a.cluCnt) :
    ∀ {cl : List ℤ} {s : St} {n : ℤ}, Mounted a s.dev → Agree a s.dev s.fsBitmap →
      Anchored a s.fsTable f cl → Loaded s.clrsCache f cl → cl ≠ [] → CntOk a cl n →
      n + inf.length < 2 ^ 31 →
      (cl.length ≤ 13 → 13 < ((inf.map BlkInfo.cid).foldl (noteClr a) cl).length → Room a s.dev) →
      ∃ s', devFileMemClrs a f inf inf.length n s = some s' ∧ Ext a f s s' ∧
        Anchored a s'.fsTable f ((inf.map BlkInfo.cid).foldl (noteClr a) cl) ∧
        Loaded s'.clrsCache f ((inf.map BlkInfo.cid).foldl (noteClr a) cl) ∧
        (Stored a s.dev s.fsTable f cl →
          ((inf.map BlkInfo.cid).foldl (noteClr a) cl).length ≤ 13 + secCap a →
          Stored a s'.dev s'.fsTable f ((inf.map BlkInfo.cid).foldl (noteClr a) cl)) := by
  induction inf with
  | nil =>
    intro cl s n hm hag han hl _ _ _ _
    exact ⟨s, rfl, Ext.refl hm hag, han, hl, fun hst _ => hst⟩
  | cons b inf ih =>
    intro cl s n hm hag han hl hne hn hlen hroom
    obtain ⟨h1, hc⟩ := hcids b List.mem_cons_self
    have hcap := secCap_lt (a := a) hm.geo.le_lblkSz
    have hn0 : 0 ≤ n := by rcases hn with hn | ⟨-, hn⟩ <;> omega
    rw [List.length_cons] at hlen
    have hsz : toSizeT n = n.toNat := toSizeT_of_nonneg hn0 (by omega)
    have hcnt : CntOk a cl (0 + n.toNat : ℕ) := by
      rw [Nat.zero_add, Int.toNat_of_nonneg hn0]
      exact hn
    have hmem := memClr_eq hm han hl h1 n.toNat hcnt
    rw [List.drop_zero, ← hsz] at hmem
    rw [List.map_cons, List.foldl_cons] at hroom ⊢
    rw [List.length_cons]
    unfold devFileMemClrs
    by_cases hin : b.cid ∈ cl
    · have hnote : noteClr a cl b.cid = cl := if_pos hin
      rw [hnote] at hroom ⊢
      obtain ⟨s', hop, hrest⟩ := ih (fun b' hb' => hcids b' (List.mem_cons_of_mem _ hb')) hm hag han
        hl hne hn (by omega) hroom
      refine ⟨s', Option.bind_eq_some_iff.mpr ⟨_, hmem, ?_⟩, hrest⟩
      dsimp only
      rw [decide_eq_true hin, if_pos rfl]
      exact hop
    · have hnote : noteClr a cl b.cid = pushClr a cl b.cid := if_neg hin
      have hlen14 : cl.length = 13 → (noteClr a cl b.cid).length = 14 := by
        intro h13
        rw [hnote, pushClr, if_pos (by omega), List.length_append, List.length_singleton, h13]
      obtain ⟨r, t, hadd, hext, han', hl', hst'⟩ := devTblClrsAdd_eq hsm h1 hc hm hag han hl hne
        fun h13 => hroom (by omega) (by
          have := length_le_foldl_noteClr a (inf.map BlkInfo.cid) (noteClr a cl b.cid)
          have := hlen14 h13
          omega)
      rw [← hnote] at han' hl' hst'
      have hn' : CntOk a (noteClr a cl b.cid) (n + 1) := by
        rw [hnote]
        unfold pushClr
        have hbound := han.bound
        split_ifs with hfit
        · rcases hn with hn | ⟨hn, -⟩
          · exact Or.inl (by simp; omega)
          · omega
        · exact Or.inr ⟨by omega, by rcases hn with hn | ⟨-, hn⟩ <;> omega⟩
      have hroom' : (noteClr a cl b.cid).length ≤ 13 →
          13 < ((inf.map BlkInfo.cid).foldl (noteClr a) (noteClr a cl b.cid)).length →
          Room a t.dev := by
        intro hle hgt
        have hcl := length_le_noteClr a cl b.cid
        obtain ⟨c, hc1, hcc, hfree⟩ := hroom (by omega) hgt
        have hshort := han'.short hle
        refine ⟨c, hc1, hcc, ?_⟩
        rcases hext.tabs c with heq | ⟨-, hcsec, -⟩
        · rw [heq]
          exact hfree
        · omega
      obtain ⟨s', hop, hext', han'', hl'', hst''⟩ := ih
        (fun b' hb' => hcids b' (List.mem_cons_of_mem _ hb')) hext.mounted hext.agree han' hl'
        (noteClr_ne_nil hne _) hn' (by omega) hroom'
      refine ⟨s', Option.bind_eq_some_iff.mpr ⟨_, hmem, ?_⟩, hext.trans hext', han'', hl'',
        fun _ hcap' => hst'' (hst' ?_) hcap'⟩
      · dsimp only
        rw [decide_eq_false hin, if_neg (by simp)]
        exact Option.bind_eq_some_iff.mpr ⟨_, hadd, hop⟩
      · exact (length_le_foldl_noteClr a _ _).trans hcap'

end Mem

end Fcfs.Vol
