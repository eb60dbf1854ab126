import Fcfs.Vol.ReadBack

/-! # How long a cluster list can get

`dev_tbl_clrs_add` takes clusters as long as the list is shorter than `s1_len`, which counts the
words of seven blocks. `dev_tbl_save_sec` writes and `dev_tbl_load_sec` reads six. So a list can
grow to a length at which the cache holds it and the volume does not, and its end is lost when the
cache is taken by another file (`survives_iff`). -/

namespace Fcfs.Vol

open Lib.Bytes

/-- `dev_tbl_clrs_add` of one cluster after the other, as long as it returns 0. -/
def addAll (a : Args) (f : ℤ) : List ℤ → St → Option St
  | [], s => some s
  | c :: cs, s => do
    let (res, s) ← devTblClrsAdd a s f c
    if res = 0 then addAll a f cs s else none

/-- The same driver with other contents of the memory it never wrote. -/
def withJunk (a : Args) (junk : Buf) : Args := { a with junk := junk }

theorem Mounted.withJunk {a : Args} {d : Dev} (h : Mounted a d) (junk : Buf) :
    Mounted (withJunk a junk) d := ⟨h.geo, h.io⟩

theorem Agree.withJunk {a : Args} {d : Dev} {bm : ℕ → UInt8} (h : Agree a d bm) (junk : Buf) :
    Agree (withJunk a junk) d bm := ⟨h.bit, h.root⟩

/-- The file has no cluster, in the table and in the cache. -/
structure EmptyList (s : St) (f : ℤ) : Prop where
  slots : ∀ i < 14, (s.fsTable.entrs f).clrs i = 0
  cache : s.clrsCache.fid = f → s.clrsCache.s0Cnt = 0 ∧ s.clrsCache.s1Cnt = 0

/-- **The added clusters survive the cache**: when `dev_tbl_clrs_cnt` has been called for another
file, the count and every element of the list are as they were added. -/
def Survives (a : Args) (s : St) (f : ℤ) (cs : List ℤ) : Prop :=
  ∀ s', addAll a f cs s = some s' → ∀ g r t, g ≠ f → devTblClrsCnt a s' g = some (r, t) →
    ∃ u, devTblClrsCnt a t f = some ((cs.length : ℤ), u) ∧
      ∀ k < cs.length, ∃ v, devTblClrsGet a u f k = some (cs.getD k 0, v)

/-! ### Adding -/

/-- The state after the clusters `cl` have been added. -/
structure Added (a : Args) (f : ℤ) (cl : List ℤ) (s : St) : Prop where
  mounted : Mounted a s.dev
  agree : Agree a s.dev s.fsBitmap
  slotted : Slotted a s.fsTable f cl
  cache : CacheOk s.clrsCache f cl
  saved : 13 < cl.length → Loaded s.clrsCache f cl ∧ Saved a s f

section Add
variable {a : Args} {f : ℤ} {cl : List ℤ} {s : St}

theorem EmptyList.added (hm : Mounted a s.dev) (hag : Agree a s.dev s.fsBitmap)
    (h : EmptyList s f) : Added a f [] s := by
  refine ⟨hm, hag, ⟨fun i hi => ?_, fun c hc => absurd hc List.not_mem_nil, Nat.zero_le _, fun _ => ?_,
    fun hlong => absurd hlong (by simp)⟩, ⟨fun hfid h0 => ?_, fun hfid h1 => ?_⟩,
    fun hlong => absurd hlong (by simp)⟩
  · rw [h.slots i (by omega)]
    rfl
  · unfold secAddr
    rw [h.slots 13 (by omega)]
    rfl
  · exact absurd (h.cache hfid).1 h0
  · exact absurd (h.cache hfid).2 h1

theorem Added.cnt (hf : f ≠ 0) (h : Added a f cl s) :
    ∃ c, devTblClrsCnt a s f = some ((cl.length : ℤ), { s with clrsCache := c }) ∧ Loaded c f cl := by
  by_cases hlong : 13 < cl.length
  · obtain ⟨hl, -⟩ := h.saved hlong
    have hne : cl ≠ [] := List.length_pos_iff.mp (by omega)
    exact ⟨s.clrsCache, devTblClrsCnt_of_loaded h.slotted hl hne
      (h.slotted.length_lt h.mounted), hl⟩
  · exact devTblClrsCnt_slotted h.mounted hf h.slotted (by omega) (fun hl => absurd hl hlong) h.cache

theorem Added.step (hsm : a.cluCnt ≤ 65535) (hf : f ≠ 0) (h : Added a f cl s) {c : ℤ} (h1 : 1 ≤ c)
    (hc : c ≤ 65535) (hroom : cl.length = 13 → Room a s.dev) (hfit : cl.length < s1Len a) :
    ∃ s', devTblClrsAdd a s f c = some (0, s') ∧ Ext a f s s' ∧ Added a f (cl ++ [c]) s' := by
  obtain ⟨c0, hcnt, hl⟩ := h.cnt hf
  obtain ⟨s', hop, hext, hs, hl', hsaved⟩ := devTblClrsAdd_room hsm h1 hc h.mounted h.agree hcnt
    h.slotted hl hroom hfit
  exact ⟨s', hop, hext, hext.mounted, hext.agree, hs, hl'.cacheOk, fun hlong => ⟨hl', hsaved hlong⟩⟩

theorem Ext.room {s' : St} (h : Ext a f s s') (hsec : secAddr s'.fsTable f = 0) (hr : Room a s.dev) :
    Room a s'.dev := by
  obtain ⟨c, h1, hc, hfree⟩ := hr
  refine ⟨c, h1, hc, ?_⟩
  rcases h.tabs c with heq | ⟨-, hcs, h1', -⟩
  · rw [heq]
    exact hfree
  · omega

/-- **A list that stays within the bound is accepted.** -/
theorem addAll_eq (hsm : a.cluCnt ≤ 65535) (hf : f ≠ 0) (cs : List ℤ)
    (hcs : ∀ c ∈ cs, 1 ≤ c ∧ c ≤ 65535) : ∀ {cl : List ℤ} {s : St}, Added a f cl s →
    (cl.length ≤ 13 → 13 < cl.length + cs.length → Room a s.dev) →
    cl.length + cs.length ≤ s1Len a →
    ∃ s', addAll a f cs s = some s' ∧ Added a f (cl ++ cs) s' ∧
      ∀ g, g ≠ f → s'.fsTable.entrs g = s.fsTable.entrs g := by
  induction cs with
  | nil =>
    intro cl s h _ _
    rw [List.append_nil]
    exact ⟨s, rfl, h, fun _ _ => rfl⟩
  | cons c cs ih =>
    intro cl s h hroom hfit
    rw [List.length_cons] at hroom hfit
    obtain ⟨h1, hc⟩ := hcs c List.mem_cons_self
    obtain ⟨t, hop, hext, ht⟩ := h.step hsm hf h1 hc (fun h13 => hroom (by omega) (by omega)) (by omega)
    have hlen : (cl ++ [c]).length = cl.length + 1 := by simp
    obtain ⟨s', hops, hs', hothers⟩ := ih (fun x hx => hcs x (List.mem_cons_of_mem _ hx)) ht
      (fun hle hgt => hext.room (ht.slotted.short hle) (hroom (by omega) (by omega))) (by omega)
    rw [List.append_assoc] at hs'
    refine ⟨s', ?_, hs', fun g hg => (hothers g hg).trans (hext.others g hg)⟩
    unfold addAll
    refine Option.bind_eq_some_iff.mpr ⟨_, hop, ?_⟩
    exact (if_pos rfl).trans hops

theorem addAll_none (hsm : a.cluCnt ≤ 65535) (hf : f ≠ 0) (cs : List ℤ)
    (hcs : ∀ c ∈ cs, 1 ≤ c ∧ c ≤ 65535) : ∀ {cl : List ℤ} {s : St}, Added a f cl s →
    (cl.length ≤ 13 → 13 < cl.length + cs.length → Room a s.dev) →
    s1Len a < cl.length + cs.length → addAll a f cs s = none := by
  induction cs with
  | nil =>
    intro cl s h _ hgt
    have := h.slotted.bound
    rw [List.length_nil] at hgt
    omega
  | cons c cs ih =>
    intro cl s h hroom hgt
    rw [List.length_cons] at hroom hgt
    have hcap := secCap_lt (a := a) h.mounted.geo.le_lblkSz
    obtain ⟨h1, hc⟩ := hcs c List.mem_cons_self
    unfold addAll
    by_cases hfit : cl.length < s1Len a
    · obtain ⟨t, hop, hext, ht⟩ := h.step hsm hf h1 hc (fun h13 => hroom (by omega) (by omega)) hfit
      have hlen : (cl ++ [c]).length = cl.length + 1 := by simp
      have hrest := ih (fun x hx => hcs x (List.mem_cons_of_mem _ hx)) ht
        (fun hle hgt => hext.room (ht.slotted.short hle) (hroom (by omega) (by omega))) (by omega)
      rw [hop, Option.bind_eq_bind, Option.bind_some]
      exact (if_pos rfl).trans hrest
    · obtain ⟨c0, hcnt, hl⟩ := h.cnt hf
      rw [devTblClrsAdd_full h.mounted.geo.le_lblkSz hcnt (by omega), Option.bind_eq_bind, Option.bind_some]
      exact if_neg (by decide)

end Add

/-! ### Reloading -/

section Reload
variable {a : Args} {f : ℤ} {cl : List ℤ} {s : St}

/-- **A list within six blocks is loaded again.** -/
theorem Added.reload (hf : f ≠ 0) (h : Added a f cl s) (hcap : cl.length ≤ 13 + secCap a)
    {c : ClrsCache} (hfid : c.fid ≠ f) :
    ∃ c', devTblClrsCnt a { s with clrsCache := c } f =
      some ((cl.length : ℤ), { s with clrsCache := c' }) ∧ Loaded c' f cl :=
  devTblClrsCnt_slotted (s := { s with clrsCache := c }) h.mounted hf h.slotted hcap
    (fun hlong => Saved.secWords (s := s) h.mounted (h.saved hlong).2 (h.saved hlong).1 hcap)
    (CacheOk.of_ne hfid)

/-- The loop of `dev_tbl_load_sec` leaves the seventh block of the buffer alone. -/
theorem loadLoop_junk {d : Dev} {cid : ℤ} (n : ℕ) : ∀ {buf : Buf},
    ((List.range n).foldlM (fun buf i => do
      let b ← devReadBlock a d cid (i + 1) false
      some (memcpy buf (i * a.lblkSz) b a.lblkSz)) a.junk) = some buf →
    ∀ k, n * a.lblkSz ≤ k → buf k = a.junk k := by
  induction n with
  | zero =>
    rintro buf hop k -
    exact congrFun (Option.some.inj hop).symm k
  | succ n ih =>
    intro buf hop k hk
    rw [List.range_succ, List.foldlM_append] at hop
    obtain ⟨buf', hpre, hop⟩ := Option.bind_eq_some_iff.mp hop
    rw [List.foldlM_cons] at hop
    obtain ⟨buf'', hop, hlast⟩ := Option.bind_eq_some_iff.mp hop
    obtain ⟨b, -, hop⟩ := Option.bind_eq_some_iff.mp hop
    have hbuf : memcpy buf' (n * a.lblkSz) b a.lblkSz = buf :=
      (Option.some.inj hop).trans (Option.some.inj hlast)
    rw [Nat.succ_mul] at hk
    rw [← hbuf, memcpy_out (Or.inr hk), ih hpre k (le_trans (Nat.le_add_right _ _) hk)]

/-- A word behind the sixth block is what stood in the memory. -/
theorem devTblLoadSec_junk {d : Dev} {cid : ℤ} {n : ℕ} {w : ℕ → UInt32}
    (h : devTblLoadSec a d cid = some (n, w)) {j : ℕ} (hj : 6 * a.lblkSz ≤ 4 + 4 * j)
    (hj' : 8 + 4 * j ≤ 7 * a.lblkSz) : w j = get32 a.junk (4 + 4 * j) := by
  unfold devTblLoadSec at h
  obtain ⟨buf, hbuf, h⟩ := Option.bind_eq_some_iff.mp h
  rw [← (Prod.mk.inj (Option.some.inj h)).2]
  unfold get32
  refine congrArg UInt32.ofNat (leNat_congr fun i hi => ?_)
  rw [shift_apply, shift_apply, cut_of_lt _ (by omega), shift_apply, loadLoop_junk 6 hbuf _ (by omega),
    ← Nat.add_assoc]

/-- The first word that is not stored, in memory full of ones. -/
theorem reload_lost (hL : 1024 ≤ a.lblkSz) (h4 : 4 ∣ a.lblkSz) (hjunk : a.junk = fun _ => 255)
    (hword : (s.fsTable.entrs f).clrs 13 ≠ 0) (hfid : s.clrsCache.fid ≠ f) {r : ℤ} {u : St}
    (hop : devTblClrsCnt a s f = some (r, u)) :
    devTblClrsGet a u f (13 + secCap a) = some (-1, u) := by
  have hcap := secCap_lt hL
  obtain ⟨c, hu, hc⟩ := devTblClrsCnt_frame hop
  have hs1 : c.s1Cnt ≠ 0 → c.s1Cl (secCap a) = 4294967295 := by
    intro _
    unfold devTblClrsCnt at hop
    rw [if_pos hfid] at hop
    obtain ⟨c', hstage, hop⟩ := Option.bind_eq_some_iff.mp hop
    have hcc : c' = c := by
      have heq := congrArg St.clrsCache (Prod.mk.inj (Option.some.inj hop)).2
      rw [hu] at heq
      exact heq
    have h0 : (clrsStage0 s f (tblClrsReinit s.clrsCache f)).s1Cnt = 0 := by
      unfold clrsStage0
      split_ifs <;> rfl
    unfold clrsStage1 at hstage
    rw [if_pos ⟨hword, h0⟩] at hstage
    obtain ⟨⟨n, w⟩, hload, hstage⟩ := Option.bind_eq_some_iff.mp hstage
    have hw : c'.s1Cl = w := by rw [← Option.some.inj hstage]
    obtain ⟨q, hq⟩ := h4
    have hones : ∀ i < 4, (255 : UInt8) = leByte (4294967295 : UInt32).toNat i := by decide
    rw [← hcc, hw, devTblLoadSec_junk hload (by unfold secCap; omega) (by unfold secCap; omega), hjunk]
    exact get32_eq hones
  rw [devTblClrsGet_of_fid (by rw [hu]; exact hc), hu]
  unfold clrsAt
  dsimp only
  rw [if_neg (by omega), if_pos hcap]
  rw [Nat.add_sub_cancel_left]
  split_ifs with h1
  · have hneg : cint (4294967295 : UInt32).toNat = -1 := by decide
    rw [hs1 h1, hneg]
  · rfl

end Reload

/-! ### What survives -/

section Survives
variable {a : Args} {s : St} {f : ℤ} {cs : List ℤ}

theorem added_of_accepted (hsm : a.cluCnt ≤ 65535) (hm : Mounted a s.dev)
    (hag : Agree a s.dev s.fsBitmap) (hf : f ≠ 0) (hempty : EmptyList s f)
    (hcs : ∀ c ∈ cs, 1 ≤ c ∧ c ≤ 65535) (hroom : 13 < cs.length → Room a s.dev)
    {s' : St} (hacc : addAll a f cs s = some s') : Added a f cs s' ∧ cs.length ≤ s1Len a ∧
      ∀ g, g ≠ f → s'.fsTable.entrs g = s.fsTable.entrs g := by
  have h := hempty.added (a := a) hm hag
  have hle : cs.length ≤ s1Len a := by
    by_contra hgt
    rw [addAll_none hsm hf cs hcs h (fun _ hlong => hroom (by simpa using hlong))
      (by simpa using hgt)] at hacc
    cases hacc
  obtain ⟨t, hop, ht, hothers⟩ := addAll_eq hsm hf cs hcs h
    (fun _ hlong => hroom (by simpa using hlong)) (by simpa using hle)
  obtain rfl := Option.some.inj (hop.symm.trans hacc)
  exact ⟨ht, hle, hothers⟩

theorem survives_of_le (hsm : a.cluCnt ≤ 65535) (hm : Mounted a s.dev)
    (hag : Agree a s.dev s.fsBitmap) (hf : f ≠ 0) (hempty : EmptyList s f)
    (hcs : ∀ c ∈ cs, 1 ≤ c ∧ c ≤ 65535) (hroom : 13 < cs.length → Room a s.dev)
    (hle : cs.length ≤ 13 + secCap a) : Survives a s f cs := by
  intro s' hacc g r t hg hevict
  obtain ⟨h, hbound, -⟩ := added_of_accepted hsm hm hag hf hempty hcs hroom hacc
  obtain ⟨c, rfl, hfid⟩ := devTblClrsCnt_frame hevict
  obtain ⟨c', hop, hl⟩ := h.reload hf hle (c := c) (hfid ▸ hg)
  refine ⟨_, hop, fun k hk => ⟨_, devTblClrsGet_eq (s := { s' with clrsCache := c' }) hl
    (fun x hx => ?_) hk (lt_of_lt_of_le hk hbound)⟩⟩
  have := hcs x hx
  omega

/-- A list that survives whatever the memory holds is one that six blocks can hold. -/
theorem le_of_survives (h4 : 4 ∣ a.lblkSz) (hsm : a.cluCnt ≤ 65535) (hm : Mounted a s.dev)
    (hag : Agree a s.dev s.fsBitmap) (hf : f ≠ 0) (hempty : EmptyList s f)
    (hroot : (s.fsTable.entrs 0).clrs 13 = 0) (hcs : ∀ c ∈ cs, 1 ≤ c ∧ c ≤ 65535)
    (hroom : 13 < cs.length → Room a s.dev) (hjunk : a.junk = fun _ => 255)
    (hacc : (addAll a f cs s).isSome) (hsurv : Survives a s f cs) : cs.length ≤ 13 + secCap a := by
  by_contra hgt
  obtain ⟨s', hop⟩ := Option.isSome_iff_exists.mp hacc
  obtain ⟨h, hbound, hothers⟩ := added_of_accepted hsm hm hag hf hempty hcs hroom hop
  -- the root takes the cache
  obtain ⟨r, t, hevict⟩ : ∃ r t, devTblClrsCnt a s' 0 = some (r, t) := by
    unfold devTblClrsCnt clrsStage1
    rw [hothers 0 (Ne.symm hf), hroot]
    exact ⟨_, _, rfl⟩
  obtain ⟨u, hcnt, hget⟩ := hsurv s' hop 0 r t (Ne.symm hf) hevict
  obtain ⟨v, hv⟩ := hget (13 + secCap a) (by omega)
  obtain ⟨c, rfl, hfid⟩ := devTblClrsCnt_frame hevict
  have hlost := reload_lost hm.geo.le_lblkSz h4 hjunk (s := { s' with clrsCache := c })
    (h.slotted.word_ne (by omega)) (by rw [hfid]; exact Ne.symm hf) hcnt
  have hval := (Prod.mk.inj (Option.some.inj (hlost.symm.trans hv))).1
  have hmem : cs.getD (13 + secCap a) 0 ∈ cs := by
    rw [List.getD_eq_getElem _ _ (by omega)]
    exact List.getElem_mem _
  have := hcs _ hmem
  omega

/-- **The exact length up to which cluster lists survive**, whatever stands in the memory the driver
never wrote. -/
theorem survives_iff (hm : Mounted a s.dev) (h4 : 4 ∣ a.lblkSz) (hsm : a.cluCnt ≤ 65535)
    (hag : Agree a s.dev s.fsBitmap) (hf : f ≠ 0) (hempty : EmptyList s f)
    (hroot : (s.fsTable.entrs 0).clrs 13 = 0) (hcs : ∀ c ∈ cs, 1 ≤ c ∧ c ≤ 65535)
    (hroom : 13 < cs.length → Room a s.dev)
    (hacc : ∀ junk, (addAll (withJunk a junk) f cs s).isSome) :
    (∀ junk, Survives (withJunk a junk) s f cs) ↔ cs.length ≤ 13 + secCap a := by
  exact ⟨fun hall => le_of_survives (a := withJunk a fun _ => 255) h4 hsm (hm.withJunk _)
    (hag.withJunk _) hf hempty hroot hcs hroom rfl (hacc _) (hall _),
    fun hle junk => survives_of_le hsm (hm.withJunk junk) (hag.withJunk junk) hf hempty hcs hroom hle⟩

end Survives

/-! ### A freshly formatted volume -/

theorem agree_sevenFresh : Agree sevenArgs sevenFresh.dev sevenFresh.fsBitmap :=
  (inv_of_fresh mounted_sevenFresh fresh_sevenFresh).agree

theorem emptyList_sevenFresh : EmptyList sevenFresh 1 :=
  ⟨fun _ _ => rfl, fun h => absurd h (by decide)⟩

theorem room_sevenFresh : Room sevenArgs sevenFresh.dev := by
  refine ⟨1, le_refl 1, by rw [cluCnt_sevenArgs]; decide, fun i => ?_⟩
  rw [sevenFresh, tab_sevenSt _ _ _ _ (by decide) (by decide)]
  rfl

theorem s1Len_sevenArgs : s1Len sevenArgs = 1785 := by
  unfold s1Len
  rw [lblkSz_sevenArgs]

theorem secCap_sevenArgs : secCap sevenArgs = 1535 := by
  unfold secCap
  rw [lblkSz_sevenArgs]

/-- The clusters `1`, `2`, …, `n`. -/
def firstClrs (n : ℕ) : List ℤ := (List.range n).map fun i : ℕ => (i : ℤ) + 1

theorem firstClrs_range {n : ℕ} (hn : n ≤ 65535) : ∀ c ∈ firstClrs n, 1 ≤ c ∧ c ≤ 65535 := by
  intro c hc
  obtain ⟨i, hi, rfl⟩ := List.mem_map.mp hc
  rw [List.mem_range] at hi
  omega

theorem accepted_sevenFresh {n : ℕ} (hn : n ≤ 1785) (junk : Buf) :
    (addAll (withJunk sevenArgs junk) 1 (firstClrs n) sevenFresh).isSome := by
  have hm := mounted_sevenFresh.withJunk junk
  have hag := agree_sevenFresh.withJunk junk
  have hlen : (firstClrs n).length = n := by simp [firstClrs]
  obtain ⟨s', hop, -⟩ := addAll_eq (a := withJunk sevenArgs junk)
    (show sevenArgs.cluCnt ≤ 65535 by rw [cluCnt_sevenArgs]; decide) (by decide) (firstClrs n)
    (firstClrs_range (by omega)) (emptyList_sevenFresh.added hm hag) (fun _ _ => room_sevenFresh)
    (by rw [hlen, List.length_nil]; exact (Nat.zero_add n).symm ▸ (s1Len_sevenArgs ▸ hn))
  rw [hop]
  rfl

/-- The last of 1549 clusters of a file is lost. -/
theorem not_survives_1549 : ¬ ∀ (a : Args) (s : St) (f : ℤ) (cs : List ℤ), Mounted a s.dev →
    4 ∣ a.lblkSz → a.cluCnt ≤ 65535 → Agree a s.dev s.fsBitmap → f ≠ 0 → EmptyList s f →
    (∀ c ∈ cs, 1 ≤ c ∧ c ≤ 65535) → cs.Nodup → Room a s.dev → (addAll a f cs s).isSome →
    Survives a s f cs := by
  intro h
  have hm := mounted_sevenFresh.withJunk fun _ => 255
  have hag := agree_sevenFresh.withJunk fun _ => 255
  have h4 : 4 ∣ (withJunk sevenArgs fun _ => 255).lblkSz := ⟨256, lblkSz_sevenArgs⟩
  have hsm : (withJunk sevenArgs fun _ => 255).cluCnt ≤ 65535 := by
    show sevenArgs.cluCnt ≤ 65535
    rw [cluCnt_sevenArgs]
    decide
  have hcs := firstClrs_range (n := 1549) (by decide)
  have hacc := accepted_sevenFresh (n := 1549) (by decide) fun _ => 255
  have hnd : (firstClrs 1549).Nodup :=
    List.nodup_range.map fun i j hij => by simpa using hij
  have hsurv := h _ _ 1 _ hm h4 hsm hag (by decide) emptyList_sevenFresh hcs hnd room_sevenFresh hacc
  have hle := le_of_survives h4 hsm hm hag (by decide) emptyList_sevenFresh rfl hcs (fun _ => room_sevenFresh)
    rfl hacc hsurv
  have hcap : secCap (withJunk sevenArgs fun _ => 255) = 1535 := secCap_sevenArgs
  rw [hcap, firstClrs, List.length_map, List.length_range] at hle
  exact absurd hle (by decide)

/-- 1548 clusters survive. -/
theorem survives_1548 : (firstClrs 1548).length = 1548 ∧
    ∀ junk, Survives (withJunk sevenArgs junk) sevenFresh 1 (firstClrs 1548) := by
  have hlen : (firstClrs 1548).length = 1548 := by rw [firstClrs, List.length_map, List.length_range]
  refine ⟨hlen, (survives_iff mounted_sevenFresh ⟨256, lblkSz_sevenArgs⟩ ?_ agree_sevenFresh (by decide)
    emptyList_sevenFresh rfl (firstClrs_range (by decide)) (fun _ => room_sevenFresh)
    (accepted_sevenFresh (by decide))).mpr ?_⟩
  · rw [cluCnt_sevenArgs]
    decide
  · rw [hlen, secCap_sevenArgs]

end Fcfs.Vol
