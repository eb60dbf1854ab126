import Fcfs.Vol.Capacity

/-! # Setting an element of a cluster list

`dev_tbl_clrs_set` writes into the cache whatever file it holds, and its second-level index is not
reduced by the thirteen direct slots. So it sets the element it is asked for only in a direct slot
of the list in the cache; elsewhere it does no harm only if the word it overwrites does not change
(`vecSet_iff`). The lists are compared as the driver reads them, by `dev_tbl_clrs_cnt` and
`dev_tbl_clrs_get`. -/

namespace Fcfs.Vol

open Lib.Bytes

/-- The count `dev_tbl_clrs_cnt` gives. -/
def cntOf (a : Args) (s : St) (g : ℤ) : Option ℤ := (devTblClrsCnt a s g).map Prod.fst

/-- The element `dev_tbl_clrs_get` gives. -/
def clrOf (a : Args) (s : St) (g : ℤ) (i : ℕ) : Option ℤ := (devTblClrsGet a s g i).map Prod.fst

/-- The list of a file reads as before. -/
structure SameList (a : Args) (s s' : St) (g : ℤ) : Prop where
  cnt : cntOf a s' g = cntOf a s g
  clr : ∀ n, cntOf a s g = some n → ∀ j : ℕ, (j : ℤ) < n → clrOf a s' g j = clrOf a s g j

/-- **The element of a vector is set**: `dev_tbl_clrs_set` returns 0, the element is the value, the
others and the count are as before, and so are the lists of other files. -/
structure VecSet (a : Args) (s : St) (f : ℤ) (m : ℤ) (i : ℕ) (v : ℤ) : Prop where
  ret : (devTblClrsSet a s i v).1 = 0
  self : clrOf a (devTblClrsSet a s i v).2 f i = some v
  rest : ∀ j : ℕ, (j : ℤ) < m → j ≠ i → clrOf a (devTblClrsSet a s i v).2 f j = clrOf a s f j
  cnt : cntOf a (devTblClrsSet a s i v).2 f = cntOf a s f
  others : ∀ g, g ≠ f → SameList a s (devTblClrsSet a s i v).2 g

/-- **The cache holds the whole list** `dl` of its file. -/
structure Cached (a : Args) (s : St) (dl : List ℤ) : Prop where
  loaded : Loaded s.clrsCache s.clrsCache.fid dl
  whole : (s.fsTable.entrs s.clrsCache.fid).clrs 13 ≠ 0 → 13 < dl.length
  small : ∀ x ∈ dl, 0 ≤ x ∧ x < 2 ^ 31
  bound : dl.length ≤ s1Len a

/-- The element that is overwritten when element `i` is to be set. -/
def setPlace (i : ℕ) : ℕ := if i < 13 then i else i + 13

/-- **Setting element `i` does nothing**: the cache has the part of the list it is looked for in, and
the element overwritten has the value already, if the list reaches that far. -/
structure Harmless (dl : List ℤ) (i : ℕ) (v : ℤ) : Prop where
  dir : i < 13 → i < dl.length
  ind : 13 ≤ i → 13 < dl.length
  same : setPlace i < dl.length → dl.getD (setPlace i) 0 = v

/-! ### Lists that are not in the cache -/

section Reload
variable {a : Args} {s : St} {g : ℤ}

/-- What the direct slots are loaded into does not matter. -/
theorem loadFirLoop_indep (clrs : ℕ → UInt16) (n : ℕ) : ∀ {count : ℕ} {w w' : ℕ → UInt32},
    (∀ i < count, w i = w' i) →
    (loadFirLoop g clrs n count w).1 = (loadFirLoop g clrs n count w').1 ∧
      ∀ i < (loadFirLoop g clrs n count w).1,
        (loadFirLoop g clrs n count w).2 i = (loadFirLoop g clrs n count w').2 i := by
  induction n with
  | zero => exact fun h => ⟨rfl, h⟩
  | succ n ih =>
    intro count w w' h
    have hnext : ∀ i < count + 1, Function.update w count (clrs count).toUInt32 i =
        Function.update w' count (clrs count).toUInt32 i := by
      intro i hi
      by_cases hic : i = count
      · rw [hic, Function.update_self, Function.update_self]
      · rw [Function.update_of_ne hic, Function.update_of_ne hic]
        exact h i (by omega)
    unfold loadFirLoop
    split_ifs
    · exact ⟨rfl, h⟩
    · exact ⟨rfl, hnext⟩
    · exact ih hnext

/-- Two caches that read alike. -/
structure Alike (a : Args) (c c' : ClrsCache) : Prop where
  fid : c'.fid = c.fid
  dir : c'.s0Cnt = c.s0Cnt
  ind : c'.s1Cnt = c.s1Cnt
  clrs : ∀ j, clrsAt a c' j = clrsAt a c j

theorem alike_of {c c' : ClrsCache} (hfid : c'.fid = c.fid) (hdir : c'.s0Cnt = c.s0Cnt)
    (hind : c'.s1Cnt = c.s1Cnt) (h0 : ∀ j < c.s0Cnt, c'.s0Cl j = c.s0Cl j)
    (h1 : c.s1Cnt ≠ 0 → c'.s1Cl = c.s1Cl) : Alike a c c' := by
  refine ⟨hfid, hdir, hind, fun j => ?_⟩
  unfold clrsAt
  rw [hdir, hind]
  split_ifs with h13 hj hj hne
  · rw [h0 j hj]
  · rfl
  · rw [h1 hne]
  · rfl
  · rfl

/-- The cache `dev_tbl_clrs_cnt` has loaded the direct slots of another file into. -/
def dirLoaded (s : St) (g : ℤ) (c : ClrsCache) : ClrsCache :=
  { c with
    fid := g
    s0Cl := (loadFirLoop g (s.fsTable.entrs g).clrs 13 0 c.s0Cl).2
    s0Cnt := (loadFirLoop g (s.fsTable.entrs g).clrs 13 0 c.s0Cl).1
    s1Cnt := 0 }

theorem cnt_other {c : ClrsCache} (hc : c.fid ≠ g) : devTblClrsCnt a { s with clrsCache := c } g =
    (clrsStage1 a s.dev ((s.fsTable.entrs g).clrs 13) (dirLoaded s g c)).map fun k =>
      (cint (k.s0Cnt + k.s1Cnt : ℕ), { s with clrsCache := k }) := by
  have hstage : clrsStage0 { s with clrsCache := c } g (tblClrsReinit c g) = dirLoaded s g c :=
    if_pos rfl
  unfold devTblClrsCnt
  simp only [ne_eq, hc, not_false_eq_true, if_true, hstage]
  rw [Option.map_eq_bind]
  rfl

/-- **A list that is not in the cache is read from the volume**, whatever the cache holds. -/
theorem cnt_reload {c c' : ClrsCache} (hc : c.fid ≠ g) (hc' : c'.fid ≠ g) :
    (devTblClrsCnt a { s with clrsCache := c } g = none ∧
      devTblClrsCnt a { s with clrsCache := c' } g = none) ∨
    ∃ n k k', devTblClrsCnt a { s with clrsCache := c } g = some (n, { s with clrsCache := k }) ∧
      devTblClrsCnt a { s with clrsCache := c' } g = some (n, { s with clrsCache := k' }) ∧
      Alike a k k' := by
  obtain ⟨hcnt, hcl⟩ : (dirLoaded s g c).s0Cnt = (dirLoaded s g c').s0Cnt ∧
      ∀ i < (dirLoaded s g c).s0Cnt, (dirLoaded s g c).s0Cl i = (dirLoaded s g c').s0Cl i :=
    loadFirLoop_indep _ 13 fun i hi => absurd hi (Nat.not_lt_zero i)
  have hk : ∀ r : ℕ × (ℕ → UInt32), Alike a { dirLoaded s g c with s1Cnt := r.1, s1Cl := r.2 }
      { dirLoaded s g c' with s1Cnt := r.1, s1Cl := r.2 } := fun r =>
    alike_of rfl hcnt.symm rfl (fun j hj => (hcl j hj).symm) fun _ => rfl
  have hk0 : Alike a (dirLoaded s g c) (dirLoaded s g c') :=
    alike_of rfl hcnt.symm rfl (fun j hj => (hcl j hj).symm) fun h => absurd rfl h
  rw [cnt_other hc, cnt_other hc']
  unfold clrsStage1
  by_cases hz : (s.fsTable.entrs g).clrs 13 ≠ 0
  · rw [if_pos ⟨hz, rfl⟩, if_pos ⟨hz, rfl⟩]
    cases hload : devTblLoadSec a s.dev ((s.fsTable.entrs g).clrs 13).toNat with
    | none => exact Or.inl ⟨rfl, rfl⟩
    | some r =>
      have hsum : (dirLoaded s g c').s0Cnt + r.1 = (dirLoaded s g c).s0Cnt + r.1 := by
        rw [hk0.dir]
      exact Or.inr ⟨_, _, _, rfl, congrArg (fun n : ℕ => some (cint n, _)) hsum, hk r⟩
  · rw [if_neg fun h => hz h.1, if_neg fun h => hz h.1]
    have hsum : (dirLoaded s g c').s0Cnt + (dirLoaded s g c').s1Cnt =
        (dirLoaded s g c).s0Cnt + (dirLoaded s g c).s1Cnt := by
      rw [hk0.dir, hk0.ind]
    exact Or.inr ⟨_, _, _, rfl, congrArg (fun n : ℕ => some (cint n, _)) hsum, hk0⟩

theorem sameList_reload {c c' : ClrsCache} (hc : c.fid ≠ g) (hc' : c'.fid ≠ g) :
    cntOf a { s with clrsCache := c' } g = cntOf a { s with clrsCache := c } g ∧
    ∀ j, clrOf a { s with clrsCache := c' } g j = clrOf a { s with clrsCache := c } g j := by
  unfold cntOf clrOf devTblClrsGet clrsLoad
  simp only [ne_eq, hc, hc', not_false_eq_true, if_true]
  rcases cnt_reload (a := a) (s := s) hc hc' with ⟨hn, hn'⟩ | ⟨n, k, k', hop, hop', halike⟩
  · rw [hn, hn']
    exact ⟨rfl, fun _ => rfl⟩
  · rw [hop, hop']
    exact ⟨rfl, fun j => congrArg some (halike.clrs j)⟩

end Reload

/-! ### The list in the cache -/

theorem HasClrs.cnt {a : Args} {s : St} {f : ℤ} {n : ℕ} (h : HasClrs s f n) (hn : n < 2 ^ 31) :
    cntOf a s f = some (n : ℤ) := by
  unfold cntOf
  rw [h.load hn, Option.map_some]

section Held
variable {a : Args} {s : St} {dl : List ℤ} (h : Cached a s dl)
include h

theorem Cached.s0Cnt_pos (hne : dl ≠ []) : s.clrsCache.s0Cnt ≠ 0 := by
  have hpos := List.length_pos_iff.mpr hne
  have := h.loaded.dir.1
  omega

/-- A list that is there is counted as it is, also with other words in it. -/
theorem Cached.hasClrs (hne : dl ≠ []) {c : ClrsCache} (hfid : c.fid = s.clrsCache.fid)
    (hdir : c.s0Cnt = s.clrsCache.s0Cnt) (hind : c.s1Cnt = s.clrsCache.s1Cnt) :
    HasClrs { s with clrsCache := c } s.clrsCache.fid dl.length := by
  have h0 := h.loaded.dir.1
  have h1 := h.loaded.ind.1
  have hpos := h.s0Cnt_pos hne
  refine ⟨hfid, ?_, fun hz => ?_, ?_⟩
  · show c.s0Cnt ≠ 0
    rw [hdir]
    exact hpos
  · show c.s1Cnt ≠ 0
    have hlong := h.whole hz
    omega
  · show c.s0Cnt + c.s1Cnt = dl.length
    omega

theorem Cached.cnt (hL : s1Len a < 2 ^ 31) (hne : dl ≠ []) {c : ClrsCache}
    (hfid : c.fid = s.clrsCache.fid) (hdir : c.s0Cnt = s.clrsCache.s0Cnt)
    (hind : c.s1Cnt = s.clrsCache.s1Cnt) :
    cntOf a { s with clrsCache := c } s.clrsCache.fid = some (dl.length : ℤ) :=
  (h.hasClrs hne hfid hdir hind).cnt (lt_of_le_of_lt h.bound hL)

theorem Cached.clr {j : ℕ} (hj : j < dl.length) : clrsAt a s.clrsCache j = dl.getD j 0 :=
  clrsAt_eq h.loaded h.small hj (lt_of_lt_of_le hj h.bound)

end Held

/-! ### What is overwritten -/

theorem cint_u32 {v : ℤ} (hv : -2 ^ 31 ≤ v ∧ v < 2 ^ 31) : cint (u32 v).toNat = v := by
  have hmod : ((u32 v).toNat : ℤ) = v % 2 ^ 32 := by
    rw [toNat_u32, Int.toNat_of_nonneg (Int.emod_nonneg _ (by norm_num))]
  have hbmod : Int.bmod (v % 2 ^ 32) (2 ^ 32) = Int.bmod v (2 ^ 32) := Int.emod_bmod v (2 ^ 32)
  unfold cint
  rw [hmod, hbmod]
  exact Int.bmod_eq_of_le (by omega) (by omega)

/-- **One element of the cache is overwritten**, and 0 is returned. -/
structure Overwrites (a : Args) (s : St) (i : ℕ) (v : ℤ) (c : ClrsCache) : Prop where
  run : devTblClrsSet a s i v = (0, { s with clrsCache := c })
  fid : c.fid = s.clrsCache.fid
  dir : c.s0Cnt = s.clrsCache.s0Cnt
  ind : c.s1Cnt = s.clrsCache.s1Cnt
  self : setPlace i < s1Len a → clrsAt a c (setPlace i) = v
  rest : ∀ j, j ≠ setPlace i → clrsAt a c j = clrsAt a s.clrsCache j

section Set
variable {a : Args} {s : St} {i : ℕ} {v : ℤ}

theorem set_direct (hv : -2 ^ 31 ≤ v ∧ v < 2 ^ 31) (hi : i < 13) (h0 : i < s.clrsCache.s0Cnt) :
    ∃ c, Overwrites a s i v c := by
  have hplace : setPlace i = i := if_pos hi
  refine ⟨{ s.clrsCache with s0Cl := Function.update s.clrsCache.s0Cl i (u32 v) },
    ?_, rfl, rfl, rfl, ?_, ?_⟩
  · exact (if_pos hi).trans (if_pos h0)
  · intro _
    unfold clrsAt
    dsimp only
    rw [hplace, if_pos hi, if_pos h0, Function.update_self, cint_u32 hv]
  · intro j hj
    rw [hplace] at hj
    unfold clrsAt
    dsimp only
    rw [Function.update_of_ne hj]

theorem set_second (hv : -2 ^ 31 ≤ v ∧ v < 2 ^ 31) (hi : 13 ≤ i) (hlt : i < s1Len a)
    (h1 : s.clrsCache.s1Cnt ≠ 0) : ∃ c, Overwrites a s i v c := by
  have hplace : setPlace i = i + 13 := if_neg (by omega)
  refine ⟨{ s.clrsCache with s1Cl := Function.update s.clrsCache.s1Cl i (u32 v) },
    ?_, rfl, rfl, rfl, ?_, ?_⟩
  · exact (if_neg (by omega)).trans ((if_pos hlt).trans (if_pos h1))
  · intro hfit
    unfold clrsAt
    dsimp only
    rw [hplace] at hfit ⊢
    rw [if_neg (by omega), if_pos hfit, if_pos h1, Nat.add_sub_cancel, Function.update_self, cint_u32 hv]
  · intro j hj
    rw [hplace] at hj
    unfold clrsAt
    dsimp only
    split_ifs with h13 h0 hfit
    · rfl
    · rfl
    · rw [Function.update_of_ne (by omega)]
    · rfl

/-- **What `dev_tbl_clrs_set` does**: it overwrites an element of the list in the cache, or it
fails for want of one. -/
theorem devTblClrsSet_eq (hv : -2 ^ 31 ≤ v ∧ v < 2 ^ 31) {dl : List ℤ} (h : Cached a s dl)
    (hi : i < s1Len a) :
    if (i < 13 → i < dl.length) ∧ (13 ≤ i → 13 < dl.length) then ∃ c, Overwrites a s i v c
    else (devTblClrsSet a s i v).1 = -1 := by
  have h0 := h.loaded.dir.1
  have h1 := h.loaded.ind.1
  split_ifs with hin
  · obtain hlt | hle := lt_or_ge i 13
    · exact set_direct hv hlt (by have := hin.1 hlt; omega)
    · exact set_second hv hle hi (by have := hin.2 hle; omega)
  · unfold devTblClrsSet
    dsimp only
    split_ifs with h13 hlt hne
    · exact absurd ⟨fun _ => by omega, fun h => by omega⟩ hin
    · rfl
    · exact absurd ⟨fun h => by omega, fun _ => by omega⟩ hin
    · rfl

end Set

/-! ### The list as a vector -/

section Vec
variable {a : Args} {s : St} {f v : ℤ} {dl : List ℤ} {i : ℕ} {c : ClrsCache}

theorem clrOf_of_fid (hfid : c.fid = f) (j : ℕ) :
    clrOf a { s with clrsCache := c } f j = some (clrsAt a c j) := by
  unfold clrOf
  rw [devTblClrsGet_of_fid (s := { s with clrsCache := c }) hfid, Option.map_some]

theorem Overwrites.others (ho : Overwrites a s i v c) {g : ℤ} (hg : g ≠ s.clrsCache.fid) :
    cntOf a { s with clrsCache := c } g = cntOf a s g ∧
      ∀ j, clrOf a { s with clrsCache := c } g j = clrOf a s g j :=
  sameList_reload (c := s.clrsCache) (Ne.symm hg) (by rw [ho.fid]; exact Ne.symm hg)

theorem Overwrites.cnt (ho : Overwrites a s i v c) (hL : s1Len a < 2 ^ 31) (h : Cached a s dl)
    (hne : dl ≠ []) : cntOf a s s.clrsCache.fid = some (dl.length : ℤ) ∧
      cntOf a { s with clrsCache := c } s.clrsCache.fid = some (dl.length : ℤ) :=
  ⟨h.cnt (c := s.clrsCache) hL hne rfl rfl rfl, h.cnt hL hne ho.fid ho.dir ho.ind⟩

/-- The list in the cache reads as before just when the element overwritten had the value. -/
theorem Overwrites.sameList_iff (ho : Overwrites a s i v c) (hL : s1Len a < 2 ^ 31) (h : Cached a s dl)
    (hne : dl ≠ []) : SameList a s { s with clrsCache := c } s.clrsCache.fid ↔
      (setPlace i < dl.length → dl.getD (setPlace i) 0 = v) := by
  obtain ⟨hcnt, hcnt'⟩ := ho.cnt hL h hne
  have hold : ∀ j, clrOf a s s.clrsCache.fid j = some (clrsAt a s.clrsCache j) :=
    clrOf_of_fid (c := s.clrsCache) rfl
  constructor
  · intro hsame hlt
    have hj := hsame.clr _ hcnt (setPlace i) (by omega)
    rw [hold, clrOf_of_fid ho.fid, ho.self (lt_of_lt_of_le hlt h.bound), h.clr hlt] at hj
    exact (Option.some.inj hj).symm
  · refine fun hv => ⟨hcnt'.trans hcnt.symm, fun n hn j hj => ?_⟩
    have hlt : j < dl.length := by
      have := Option.some.inj (hcnt.symm.trans hn)
      omega
    rw [hold, clrOf_of_fid ho.fid]
    by_cases hji : j = setPlace i
    · rw [hji] at hlt ⊢
      rw [ho.self (lt_of_lt_of_le hlt h.bound), h.clr hlt, hv hlt]
    · rw [ho.rest j hji]

theorem vecSet_iff_other (hL : s1Len a < 2 ^ 31) (h : Cached a s dl) (hv : -2 ^ 31 ≤ v ∧ v < 2 ^ 31)
    (hi : i < s1Len a) (hfid : s.clrsCache.fid ≠ f) {m : ℤ} :
    VecSet a s f m i v ↔ clrOf a s f i = some v ∧ Harmless dl i v := by
  have hset := devTblClrsSet_eq hv h hi
  split_ifs at hset with hin
  · obtain ⟨c, ho⟩ := hset
    have hne : dl ≠ [] := by
      rintro rfl
      obtain hlt | hle := lt_or_ge i 13
      · exact absurd (hin.1 hlt) (Nat.not_lt_zero _)
      · exact absurd (hin.2 hle) (Nat.not_lt_zero _)
    obtain ⟨hcnt, hclr⟩ := ho.others (Ne.symm hfid)
    have hself := ho.sameList_iff hL h hne
    have hrun : (devTblClrsSet a s i v).2 = { s with clrsCache := c } := by rw [ho.run]
    constructor
    · intro hvec
      have hothers := hvec.others s.clrsCache.fid hfid
      have hat := hvec.self
      rw [hrun] at hothers hat
      exact ⟨(hclr i).symm.trans hat, hin.1, hin.2, hself.mp hothers⟩
    · rintro ⟨hat, hharm⟩
      refine ⟨by rw [ho.run], ?_, ?_, ?_, ?_⟩ <;> rw [hrun]
      · exact (hclr i).trans hat
      · exact fun j _ _ => hclr j
      · exact hcnt
      · intro g hg
        by_cases hgf : g = s.clrsCache.fid
        · rw [hgf]
          exact hself.mpr hharm.same
        · obtain ⟨hcnt', hclr'⟩ := ho.others hgf
          exact ⟨hcnt', fun _ _ j _ => hclr' j⟩
  · refine iff_of_false (fun hvec => ?_) fun hharm => hin ⟨hharm.2.dir, hharm.2.ind⟩
    rw [hvec.ret] at hset
    exact absurd hset (by norm_num)

theorem vecSet_iff_held (hL : s1Len a < 2 ^ 31) (h : Cached a s dl) (hv : -2 ^ 31 ≤ v ∧ v < 2 ^ 31)
    (hi : i < dl.length) : VecSet a s s.clrsCache.fid dl.length i v ↔
      i < 13 ∨ (clrOf a s s.clrsCache.fid i = some v ∧ Harmless dl i v) := by
  have hset := devTblClrsSet_eq hv h (lt_of_lt_of_le hi h.bound)
  rw [if_pos ⟨fun _ => hi, fun hle => by omega⟩] at hset
  obtain ⟨c, ho⟩ := hset
  have hne : dl ≠ [] := List.length_pos_iff.mp (by omega)
  have hrun : (devTblClrsSet a s i v).2 = { s with clrsCache := c } := by rw [ho.run]
  have hold : ∀ j, clrOf a s s.clrsCache.fid j = some (clrsAt a s.clrsCache j) :=
    clrOf_of_fid (c := s.clrsCache) rfl
  obtain ⟨hcnt, hcnt'⟩ := ho.cnt hL h hne
  have hothers : ∀ g, g ≠ s.clrsCache.fid → SameList a s { s with clrsCache := c } g := by
    intro g hg
    obtain ⟨hcntg, hclrg⟩ := ho.others hg
    exact ⟨hcntg, fun _ _ j _ => hclrg j⟩
  obtain hlt | hle := lt_or_ge i 13
  · have hplace : setPlace i = i := if_pos hlt
    refine iff_of_true ?_ (Or.inl hlt)
    refine ⟨by rw [ho.run], ?_, ?_, ?_, ?_⟩ <;> rw [hrun]
    · have hself := ho.self (by rw [hplace]; exact lt_of_lt_of_le hi h.bound)
      rw [hplace] at hself
      rw [clrOf_of_fid ho.fid, hself]
    · intro j _ hji
      rw [hold, clrOf_of_fid ho.fid, ho.rest j (by rw [hplace]; exact hji)]
    · exact hcnt'.trans hcnt.symm
    · exact hothers
  · have hplace : setPlace i = i + 13 := if_neg (by omega)
    have hat : clrOf a { s with clrsCache := c } s.clrsCache.fid i = clrOf a s s.clrsCache.fid i := by
      rw [hold, clrOf_of_fid ho.fid, ho.rest i (by omega)]
    have hsame := ho.sameList_iff hL h hne
    constructor
    · intro hvec
      have hself := hvec.self
      have hrest := hvec.rest
      rw [hrun] at hself hrest
      refine Or.inr ⟨hat.symm.trans hself, fun hlt => by omega, fun _ => by omega, hsame.mp ?_⟩
      refine ⟨hcnt'.trans hcnt.symm, fun n hn j hj => ?_⟩
      have hn' := Option.some.inj (hcnt.symm.trans hn)
      by_cases hji : j = i
      · rw [hji]
        exact hat
      · exact hrest j (by omega) hji
    · rintro (hlt | ⟨hval, hharm⟩)
      · omega
      · have hlist := hsame.mpr hharm.same
        refine ⟨by rw [ho.run], ?_, ?_, ?_, ?_⟩ <;> rw [hrun]
        · exact hat.trans hval
        · exact fun j hj _ => hlist.clr _ hcnt j hj
        · exact hlist.cnt
        · exact hothers

/-- **Exactly when setting an element sets it.** -/
theorem vecSet_iff (hL : s1Len a < 2 ^ 31) (h : Cached a s dl) (hheld : s.clrsCache.fid = f → dl ≠ [])
    {m : ℤ} (hcnt : cntOf a s f = some m) (hm : m ≤ s1Len a) (hi : (i : ℤ) < m)
    (hv : -2 ^ 31 ≤ v ∧ v < 2 ^ 31) : VecSet a s f m i v ↔
      (s.clrsCache.fid = f ∧ i < 13) ∨ (clrOf a s f i = some v ∧ Harmless dl i v) := by
  by_cases hfid : s.clrsCache.fid = f
  · subst hfid
    have hlen := h.cnt (c := s.clrsCache) hL (hheld rfl) rfl rfl rfl
    obtain rfl : (dl.length : ℤ) = m := Option.some.inj (hlen.symm.trans hcnt)
    rw [vecSet_iff_held hL h hv (by omega)]
    simp only [true_and]
  · rw [vecSet_iff_other hL h hv (by omega) hfid]
    exact (or_iff_right fun hdir => hfid hdir.1).symm

end Vec

/-! ### Lists that were added -/

section Built
variable {a : Args} {s : St} {f : ℤ} {cl : List ℤ}

theorem Slotted.cached (hs : Slotted a s.fsTable f cl) {c : ClrsCache} (hl : Loaded c f cl)
    (hlt : ∀ x ∈ cl, x < 2 ^ 31) : Cached a { s with clrsCache := c } cl := by
  have hfid := hl.fid
  subst hfid
  refine ⟨hl, fun hz => ?_, fun x hx => ?_, hs.bound⟩
  · by_contra hshort
    exact hz (hs.word_eq (by omega))
  · have hpos := hs.pos x hx
    exact ⟨by omega, hlt x hx⟩

/-- **A list that was added**, once counted, is in the cache as it is. -/
theorem Added.cached (hf : f ≠ 0) (h : Added a f cl s) (hle : ∀ x ∈ cl, x ≤ 65535) :
    ∃ c, devTblClrsCnt a s f = some ((cl.length : ℤ), { s with clrsCache := c }) ∧ c.fid = f ∧
      Cached a { s with clrsCache := c } cl := by
  obtain ⟨c, hcnt, hl⟩ := h.cnt hf
  refine ⟨c, hcnt, hl.fid, h.slotted.cached hl fun x hx => ?_⟩
  have := hle x hx
  omega

end Built

/-! ### Fourteen clusters -/

theorem built_fourteen : ∃ s' c, addAll sevenArgs 1 (firstClrs 14) sevenFresh = some s' ∧
    devTblClrsCnt sevenArgs s' 1 = some (14, { s' with clrsCache := c }) ∧ c.fid = 1 ∧
    Cached sevenArgs { s' with clrsCache := c } (firstClrs 14) := by
  have hlen : (firstClrs 14).length = 14 := by simp [firstClrs]
  have hsm : sevenArgs.cluCnt ≤ 65535 := by
    rw [cluCnt_sevenArgs]
    decide
  have hcs := firstClrs_range (n := 14) (by simp)
  obtain ⟨s', hop, hadded, -⟩ := addAll_eq hsm (f := 1) (by simp) (firstClrs 14) hcs
    (emptyList_sevenFresh.added mounted_sevenFresh agree_sevenFresh) (fun _ _ => room_sevenFresh)
    (by rw [hlen, s1Len_sevenArgs]; decide)
  obtain ⟨c, hcnt, hfid, hcached⟩ := hadded.cached (by simp) fun x hx => (hcs x hx).2
  have hcnt' : devTblClrsCnt sevenArgs s' 1 = some (14, { s' with clrsCache := c }) := by
    rw [hcnt]
    simp [hlen]
  exact ⟨s', c, hop, hcnt', hfid, hcached⟩

/-- The fourteenth element is not set. -/
theorem not_vecSet_fourteenth : ¬ ∀ (a : Args) (s : St) (f : ℤ) (cs : List ℤ) (s' t : St) (m : ℤ)
    (i : ℕ) (v : ℤ), Mounted a s.dev → Agree a s.dev s.fsBitmap → f ≠ 0 → EmptyList s f →
    (∀ c ∈ cs, 1 ≤ c ∧ c ≤ 65535) → addAll a f cs s = some s' → devTblClrsCnt a s' f = some (m, t) →
    i < m → -2 ^ 31 ≤ v ∧ v < 2 ^ 31 → VecSet a t f m i v := by
  intro hall
  obtain ⟨s', c, hop, hcnt, hfid, hcached⟩ := built_fourteen
  have hlen : (firstClrs 14).length = 14 := by simp [firstClrs]
  have hvec := hall sevenArgs sevenFresh 1 (firstClrs 14) s' _ 14 13 0 mounted_sevenFresh agree_sevenFresh
    (by simp) emptyList_sevenFresh (firstClrs_range (by simp)) hop hcnt (by simp) (by simp)
  have hL := s1Len_lt mounted_sevenFresh
  have hiff := vecSet_iff_held (v := 0) (i := 13) hL hcached (by simp) (by rw [hlen]; decide)
  rw [hlen, show ({ s' with clrsCache := c } : St).clrsCache.fid = 1 from hfid] at hiff
  obtain hlt | ⟨hval, -⟩ := hiff.mp hvec
  · exact absurd hlt (by simp)
  · rw [clrOf_of_fid hfid, hcached.clr (by rw [hlen]; decide)] at hval
    exact absurd hval (by decide)

/-- The fourth is. -/
theorem vecSet_fourth : ∃ s' t, addAll sevenArgs 1 (firstClrs 14) sevenFresh = some s' ∧
    devTblClrsCnt sevenArgs s' 1 = some (14, t) ∧ VecSet sevenArgs t 1 14 3 9 := by
  obtain ⟨s', c, hop, hcnt, hfid, hcached⟩ := built_fourteen
  have hlen : (firstClrs 14).length = 14 := by simp [firstClrs]
  have hne : firstClrs 14 ≠ [] := List.length_pos_iff.mp (by rw [hlen]; decide)
  have hL := s1Len_lt mounted_sevenFresh
  have hown := hcached.cnt (c := c) hL hne rfl rfl rfl
  rw [hlen, show ({ s' with clrsCache := c } : St).clrsCache.fid = 1 from hfid] at hown
  exact ⟨s', _, hop, hcnt, (vecSet_iff hL hcached (fun _ => hne) hown
    (by rw [s1Len_sevenArgs]; decide) (by simp) (by simp)).mpr (Or.inl ⟨hfid, by simp⟩)⟩

end Fcfs.Vol
