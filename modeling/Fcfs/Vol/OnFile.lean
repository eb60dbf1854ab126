import Fcfs.Vol.Consistent

/-! # Working on one file

`OnFile` is what any operation on a file may do to the volume: entries of the cluster tables change
only if they were free or the file's own, and become free, the file's own, or claimed for a
second-level array; blocks change only if they were free or the file's own, or lie in the cluster
of its second-level array. It composes (`OnFile.trans`), and appending to the cluster list
(`Ext.onFile`) and writing the file's blocks (`Wrote.onFile`) are cases of it. Whatever is `OnFile`
leaves the lists, the contents and the stored cluster lists of all other files alone. -/

namespace Fcfs.Vol

open Lib.Bytes

/-- The identifier in an entry the file may take: none, or its own. -/
def Mine (f : ℤ) (x : UInt32) : Prop := x = 0 ∨ x = u32 f

/-- A block the file may write. -/
structure Avail (a : Args) (s : St) (f c : ℤ) (b : ℕ) : Prop where
  clu : 1 ≤ c ∨ f = 0 ∧ c = 0
  blk : 1 ≤ b ∧ b ≤ 7
  own : (∃ i : Fin 7, b = i.val + 1 ∧ Mine f (tab a s.dev c i).fid) ∨ c = secAddr s.fsTable f

/-- **What working on the file `f` may do.** -/
structure OnFile (a : Args) (f : ℤ) (s s' : St) : Prop where
  mounted : Mounted a s'.dev
  agree : Agree a s'.dev s'.fsBitmap
  ids : s'.mapFid = s.mapFid
  clrs : s'.clrsCache = s.clrsCache ∨ s'.clrsCache.fid = f
  seqs : ∀ g, g ≠ f → s'.mapSeq g = s.mapSeq g
  others : ∀ g, g ≠ f → s'.fsTable.entrs g = s.fsTable.entrs g
  addr : secAddr s'.fsTable f = secAddr s.fsTable f ∨ secAddr s'.fsTable f = 0 ∨
    ∀ i, Mine f (tab a s.dev (secAddr s'.fsTable f) i).fid
  tabs : ∀ c i, tab a s'.dev c i = tab a s.dev c i ∨ 1 ≤ c ∧ Mine f (tab a s.dev c i).fid ∧
    (Mine f (tab a s'.dev c i).fid ∨ (tab a s'.dev c i).fid = u32 (-1))
  blks : ∀ c b, data a s'.dev c b = data a s.dev c b ∨ Avail a s f c b
  log : ∃ new, devLog s' = new ++ devLog s ∧
    ∀ e ∈ new, 1 ≤ e.1 ∧ e.2 = 0 ∨ Avail a s f e.1 e.2

theorem OnFile.refl {a : Args} {f : ℤ} {s : St} (hm : Mounted a s.dev)
    (hag : Agree a s.dev s.fsBitmap) : OnFile a f s s :=
  ⟨hm, hag, rfl, Or.inl rfl, fun _ _ => rfl, fun _ _ => rfl, Or.inl rfl, fun _ _ => Or.inl rfl,
    fun _ _ => Or.inl rfl, [], rfl, fun _ he => absurd he List.not_mem_nil⟩

section Trans
variable {a : Args} {f : ℤ} {s t u : St}

/-- An entry the file may take later it could have taken before. -/
theorem OnFile.mine (h : OnFile a f s t) {c : ℤ} {i : Fin 7} (hm : Mine f (tab a t.dev c i).fid) :
    Mine f (tab a s.dev c i).fid := by
  rcases h.tabs c i with heq | ⟨-, hs, -⟩
  · exact heq ▸ hm
  · exact hs

theorem OnFile.avail (h : OnFile a f s t) {c : ℤ} {b : ℕ} (ht : Avail a t f c b) :
    Avail a s f c b := by
  refine ⟨ht.clu, ht.blk, ?_⟩
  rcases ht.own with ⟨i, hb, hi⟩ | hc
  · exact Or.inl ⟨i, hb, h.mine hi⟩
  · obtain ⟨h1, h7⟩ := ht.blk
    have hfree : (∀ i, Mine f (tab a s.dev c i).fid) →
        ∃ i : Fin 7, b = i.val + 1 ∧ Mine f (tab a s.dev c i).fid := fun hall =>
      ⟨⟨b - 1, by omega⟩, by simp only; omega, hall _⟩
    rcases h.addr with heq | hz | hall
    · exact Or.inr (hc.trans heq)
    · rcases ht.clu with hpos | ⟨hf, h0⟩
      · omega
      · by_cases hs : secAddr s.fsTable f = 0
        · exact Or.inr (h0.trans hs.symm)
        · -- the root's own cluster
          refine Or.inl (hfree fun i => Or.inl ?_)
          have hroot := h.agree.root i
          rcases h.tabs 0 i with heq | ⟨h10, -⟩
          · rw [h0, ← heq]
            exact hroot
          · omega
    · exact Or.inl (hfree (hc ▸ hall))

/-- **The effects of two steps.** -/
theorem OnFile.trans (h : OnFile a f s t) (h' : OnFile a f t u) : OnFile a f s u := by
  obtain ⟨new, hlog, hnew⟩ := h.log
  obtain ⟨new', hlog', hnew'⟩ := h'.log
  refine ⟨h'.mounted, h'.agree, h'.ids.trans h.ids, ?_,
    fun g hg => (h'.seqs g hg).trans (h.seqs g hg),
    fun g hg => (h'.others g hg).trans (h.others g hg), ?_, fun c i => ?_, fun c b => ?_,
    new' ++ new, by rw [hlog', hlog, List.append_assoc], fun e he => ?_⟩
  · rcases h'.clrs with heq | hfid
    · rw [heq]
      exact h.clrs
    · exact Or.inr hfid
  · rcases h'.addr with heq | hz | hall
    · rw [heq]
      exact h.addr
    · exact Or.inr (Or.inl hz)
    · exact Or.inr (Or.inr fun i => h.mine (hall i))
  · rcases h'.tabs c i with heq' | ⟨h1', hm', hn'⟩
    · rw [heq']
      exact h.tabs c i
    · exact Or.inr ⟨h1', h.mine hm', hn'⟩
  · rcases h'.blks c b with heq' | hav
    · rw [heq']
      exact h.blks c b
    · exact Or.inr (h.avail hav)
  · rcases List.mem_append.mp he with he | he
    · rcases hnew' e he with htab | hav
      · exact Or.inl htab
      · exact Or.inr (h.avail hav)
    · exact hnew e he

end Trans

/-! ### Cases -/

section Cases
variable {a : Args} {f : ℤ} {s s' : St}

theorem data_of_not {d : Dev} {c : ℤ} {b : ℕ} (h : ¬ (InVol a c b ∧ 1 ≤ b)) :
    data a d c b = fun _ => 0 := if_neg h

theorem mine_of_allFree {e : Fin 7 → BlkEnt} (h : AllFree e) (f : ℤ) (i : Fin 7) :
    Mine f (e i).fid := Or.inl (h i)

/-- **Appending to the cluster list works on the file.** -/
theorem Ext.onFile (h : Ext a f s s')
    (hclrs : s'.clrsCache = s.clrsCache ∨ s'.clrsCache.fid = f) : OnFile a f s s' := by
  have hpos : ∀ c, c = secAddr s'.fsTable f → c ≠ 0 → 1 ≤ c := by
    intro c hc h0
    unfold secAddr at hc
    omega
  have hav : ∀ c b, c = secAddr s'.fsTable f → c ≠ 0 → 1 ≤ b → b ≤ 6 → Avail a s f c b := by
    intro c b hc h0 h1 h6
    refine ⟨Or.inl (hpos c hc h0), ⟨h1, by omega⟩, ?_⟩
    by_cases hs : secAddr s.fsTable f = 0
    · obtain ⟨-, hfree, -⟩ := h.claim hs (hc ▸ h0)
      exact Or.inl ⟨⟨b - 1, by omega⟩, by simp only; omega, mine_of_allFree (hc ▸ hfree) f _⟩
    · exact Or.inr (hc.trans (h.keep hs))
  obtain ⟨new, hlog, hnew⟩ := h.log
  refine ⟨h.mounted, h.agree, h.ids, hclrs, fun g _ => congrFun h.seq g, h.others, ?_,
    fun c i => ?_, fun c b => ?_, new, hlog, fun e he => ?_⟩
  · by_cases hs : secAddr s.fsTable f = 0
    · by_cases hs' : secAddr s'.fsTable f = 0
      · exact Or.inl (hs'.trans hs.symm)
      · exact Or.inr (Or.inr (mine_of_allFree (h.claim hs hs').2.1 f))
    · exact Or.inl (h.keep hs)
  · rcases h.tabs c with heq | ⟨-, -, h1, -, hfree, hcl⟩
    · exact Or.inl (congrFun heq i)
    · exact Or.inr ⟨h1, Or.inl (hfree i), Or.inr (by rw [hcl]; rfl)⟩
  · by_cases hb : InVol a c b ∧ 1 ≤ b
    · rcases h.blks c b with heq | ⟨hc, h0, h6⟩
      · exact Or.inl heq
      · exact Or.inr (hav c b hc h0 hb.2 h6)
    · rw [data_of_not hb, data_of_not hb]
      exact Or.inl rfl
  · obtain ⟨hc, h0, h6⟩ := hnew e he
    rcases Nat.eq_zero_or_pos e.2 with hz | hb
    · exact Or.inl ⟨hpos _ hc h0, hz⟩
    · exact Or.inr (hav _ _ hc h0 hb h6)

/-- **Writing the file's blocks works on the file.** -/
theorem Wrote.onFile {l : List BlkInfo} (h : Wrote a l s s') (hag : Agree a s.dev s.fsBitmap)
    (hl : ∀ b ∈ l, Avail a s f b.cid b.bid) : OnFile a f s s' := by
  have hmem := h.mem
  have hbm : s'.fsBitmap = s.fsBitmap := by rw [hmem]
  have htab : s'.fsTable = s.fsTable := by rw [hmem]
  obtain ⟨new, hlog, hnew⟩ := h.log
  have hav : ∀ e ∈ l.map blkOf, Avail a s f e.1 e.2 := by
    intro e he
    obtain ⟨b, hb, rfl⟩ := List.mem_map.mp he
    exact hl b hb
  refine ⟨h.mounted, ?_, by rw [hmem], Or.inl (by rw [hmem]), fun g _ => by rw [hmem],
    fun g _ => by rw [htab], Or.inl (by rw [htab]), fun c i => Or.inl (by rw [h.tabs]), fun c b => ?_, new, hlog,
    fun e he => Or.inr (hav e (hnew e he))⟩
  · rw [hbm]
    exact hag.congr h.tabs
  · by_cases hb : (c, b) ∈ l.map blkOf
    · exact Or.inr (hav _ hb)
    · exact Or.inl (h.blks c b hb)

theorem FileSeq.avail {l : List BlkInfo} (h : FileSeq a (tab a s.dev) f l) :
    ∀ b ∈ l, Avail a s f b.cid b.bid := by
  intro b hb
  obtain ⟨-, -, i, hi, hf⟩ := h.owns hb
  have hbid : b.bid = i.val + 1 := hi
  exact ⟨Or.inl (h.pos b hb), by omega, Or.inl ⟨i, hi, Or.inr hf⟩⟩

end Cases

/-! ### The other files -/

/-- `g` is not free, not `f`, and not the mark of a claimed cluster. -/
structure Foreign (f g : ℤ) : Prop where
  mine : ¬ Mine f (u32 g)
  claim : u32 g ≠ u32 (-1)

theorem foreign_of_lt {f g : ℤ} (hf0 : 0 ≤ f) (hf : f < tableLen) (hg0 : 0 < g) (hg : g < tableLen)
    (hne : g ≠ f) : Foreign f g := by
  unfold tableLen at hf hg
  refine ⟨fun h => ?_, fun h => ?_⟩
  · rcases h with h | h
    · have := (u32_inj (x := g) (y := 0) (by omega) (by omega) (by omega) (by omega)).mp h
      omega
    · exact hne ((u32_inj (by omega) (by omega) (by omega) (by omega)).mp h)
  · have := congrArg UInt32.toNat h
    rw [toNat_u32_of_lt (by omega) (by omega)] at this
    have hneg : (u32 (-1)).toNat = 4294967295 := by decide
    omega

/-- The file's address cluster, if there is one, is claimed. -/
def SecOwned (a : Args) (s : St) (f : ℤ) : Prop :=
  secAddr s.fsTable f = 0 ∨ ∀ i, (tab a s.dev (secAddr s.fsTable f) i).fid = u32 (-1)

/-- The blocks of another file are none of those the file may write. -/
theorem Avail.not_owns {a : Args} {s : St} {f g : ℤ} {p : ℤ × ℕ} (h : Avail a s f p.1 p.2)
    (hfg : Foreign f g) (hsec : SecOwned a s f) (hpos : 1 ≤ p.1) : ¬ Owns a (tab a s.dev) g p := by
  rintro ⟨-, -, i, hi, hg⟩
  rcases h.own with ⟨j, hj, hm⟩ | hc
  · obtain rfl : i = j := Fin.ext (by omega)
    exact hfg.mine (hg ▸ hm)
  · rcases hsec with hz | hall
    · omega
    · exact hfg.claim (hg.symm.trans (hc ▸ hall i))

/-- None of the file's blocks lies in its address cluster. -/
def SecApart (a : Args) (s : St) (f : ℤ) : Prop :=
  secAddr s.fsTable f = 0 ∨ ∀ i, (tab a s.dev (secAddr s.fsTable f) i).fid ≠ u32 f

theorem SecOwned.apart {a : Args} {s : St} {f : ℤ} (h : SecOwned a s f) (hf : u32 f ≠ u32 (-1)) :
    SecApart a s f :=
  h.imp_right fun hall i hi => hf (hi.symm.trans (hall i))

section Others
variable {a : Args} {f g : ℤ} {s s' : St} (h : OnFile a f s s')
include h

theorem OnFile.cacheOk {cl : List ℤ} (hne : g ≠ f) (hc : CacheOk s.clrsCache g cl) :
    CacheOk s'.clrsCache g cl := by
  rcases h.clrs with heq | hfid
  · rw [heq]
    exact hc
  · exact CacheOk.of_ne (hfid ▸ Ne.symm hne)

theorem OnFile.entry (hfg : Foreign f g) (c : ℤ) (i : Fin 7) :
    ((tab a s'.dev c i).fid = u32 g ↔ (tab a s.dev c i).fid = u32 g) ∧
      ((tab a s.dev c i).fid = u32 g → tab a s'.dev c i = tab a s.dev c i) := by
  rcases h.tabs c i with heq | ⟨-, hm, hm'⟩
  · rw [heq]
    exact ⟨Iff.rfl, fun _ => rfl⟩
  · have hno : (tab a s.dev c i).fid ≠ u32 g := fun he => hfg.mine (he ▸ hm)
    refine ⟨⟨fun he => ?_, fun he => absurd he hno⟩, fun he => absurd he hno⟩
    rcases hm' with hm' | hm'
    · exact absurd (he ▸ hm') hfg.mine
    · exact absurd (he.symm.trans hm') hfg.claim

theorem OnFile.owns (hfg : Foreign f g) (p : ℤ × ℕ) :
    Owns a (tab a s'.dev) g p ↔ Owns a (tab a s.dev) g p := by
  unfold Owns
  simp only [(h.entry hfg p.1 _).1]

theorem OnFile.nodesOf (hfg : Foreign f g) (c : ℤ) :
    nodesOf (tab a s'.dev c) g c = nodesOf (tab a s.dev c) g c := by
  have hfilter : ((List.finRange 7).filter fun i => u32 g == (tab a s'.dev c i).fid) =
      (List.finRange 7).filter fun i => u32 g == (tab a s.dev c i).fid := by
    refine List.filter_congr fun i _ => ?_
    rw [Bool.eq_iff_iff, beq_iff_eq, beq_iff_eq, eq_comm, (h.entry hfg c i).1, eq_comm]
  unfold Vol.nodesOf
  rw [hfilter]
  refine List.map_congr_left fun i hi => ?_
  have hfid : (tab a s.dev c i).fid = u32 g := (beq_iff_eq.mp (List.mem_filter.mp hi).2).symm
  rw [(h.entry hfg c i).2 hfid]

/-- **What is rebuilt for another file** is what was. -/
theorem OnFile.ownNodes (hfg : Foreign f g) (cl : List ℤ) :
    ownNodes (tab a s'.dev) g cl = ownNodes (tab a s.dev) g cl := by
  unfold Vol.ownNodes
  simp only [h.nodesOf hfg]

/-- A block whose entry is neither free nor the file's, and which does not lie in its address
cluster, keeps its contents. -/
theorem OnFile.data_eq {c : ℤ} {b : ℕ} (hown : ∀ i : Fin 7, b = i.val + 1 →
    ¬ Mine f (tab a s.dev c i).fid) (hsec : c ≠ secAddr s.fsTable f) :
    data a s'.dev c b = data a s.dev c b := by
  rcases h.blks c b with heq | hav
  · exact heq
  · rcases hav.own with ⟨i, hb, hi⟩ | hc
    · exact absurd hi (hown i hb)
    · exact absurd hc hsec

theorem OnFile.data_owned (hfg : Foreign f g) (hsec : SecOwned a s f) {p : ℤ × ℕ}
    (hp : Owns a (tab a s.dev) g p) (hpos : 1 ≤ p.1) : data a s'.dev p.1 p.2 = data a s.dev p.1 p.2 := by
  rcases h.blks p.1 p.2 with heq | hav
  · exact heq
  · exact absurd hp (hav.not_owns hfg hsec hpos)

/-- **The contents of another file** stay. -/
theorem OnFile.content (hfg : Foreign f g) (hsec : SecOwned a s f) {l : List BlkInfo}
    (hl : FileSeq a (tab a s.dev) g l) : content a s'.dev l = content a s.dev l :=
  content_congr fun b hb => h.data_owned hfg hsec (hl.owns hb) (hl.pos b hb)

/-- **The stored cluster list of another file** stays. -/
theorem OnFile.stored {cl : List ℤ} (hf0 : 0 ≤ f) (hf : f < tableLen) (hne : g ≠ f)
    (hst : Stored a s.dev s.fsTable g cl)
    (hown : 13 < cl.length → ∀ i, (tab a s.dev (secAddr s.fsTable g) i).fid = u32 (-1))
    (hdis : 13 < cl.length → secAddr s.fsTable g ≠ secAddr s.fsTable f) (hL : 1024 ≤ a.lblkSz) :
    Stored a s'.dev s'.fsTable g cl := by
  have hent := h.others g hne
  have haddr : secAddr s'.fsTable g = secAddr s.fsTable g := by
    unfold secAddr
    rw [hent]
  have hneg : ¬ Mine f (u32 (-1)) := by
    unfold tableLen at hf
    intro hm
    have hval : (u32 (-1)).toNat = 4294967295 := by decide
    rcases hm with hm | hm
    · rw [hm] at hval
      exact absurd hval (by decide)
    · rw [hm, toNat_u32_of_lt (by omega) (by omega)] at hval
      omega
  refine ⟨⟨fun i hi => by rw [hent]; exact hst.slots i hi, hst.range, hst.bound, fun hs => ?_,
    fun hlong => ?_⟩, hst.cap, fun hlong => ?_⟩
  · rw [haddr]
    exact hst.short hs
  · rw [haddr]
    exact hst.long hlong
  · have hcap := hst.cap
    have hdrop : (cl.drop 13).length = cl.length - 13 := List.length_drop
    rw [haddr]
    refine (hst.words hlong).congr (fun b _ _ => ?_) hL (by omega)
    exact h.data_eq (fun i _ hm => hneg (hown hlong i ▸ hm)) (hdis hlong)

theorem OnFile.secOwned (hf0 : 0 ≤ f) (hf : f < tableLen) (hne : g ≠ f) (hown : SecOwned a s g) :
    SecOwned a s' g := by
  have haddr : secAddr s'.fsTable g = secAddr s.fsTable g := by
    unfold secAddr
    rw [h.others g hne]
  unfold SecOwned
  rw [haddr]
  rcases hown with hz | hall
  · exact Or.inl hz
  · refine Or.inr fun i => ?_
    rcases h.tabs (secAddr s.fsTable g) i with heq | ⟨-, hm, hm'⟩
    · rw [heq]
      exact hall i
    · have hval : (u32 (-1)).toNat = 4294967295 := by decide
      unfold tableLen at hf
      rw [hall i] at hm
      rcases hm with hm | hm
      · rw [hm] at hval
        exact absurd hval (by decide)
      · rw [hm, toNat_u32_of_lt (by omega) (by omega)] at hval
        omega

theorem OnFile.tab_root (i : Fin 7) : tab a s'.dev 0 i = tab a s.dev 0 i := by
  rcases h.tabs 0 i with heq | ⟨h1, -⟩
  · exact heq
  · omega

/-- **The root's blocks** stay. -/
theorem OnFile.data_root (hf : f ≠ 0) (b : ℕ) : data a s'.dev 0 b = data a s.dev 0 b := by
  rcases h.blks 0 b with heq | hav
  · exact heq
  · rcases hav.clu with h1 | ⟨h0, -⟩
    · omega
    · exact absurd h0 hf

end Others

end Fcfs.Vol
