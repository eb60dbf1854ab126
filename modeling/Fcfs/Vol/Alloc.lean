import Fcfs.Vol.VolOk

/-! # The block of a new file

`dev_file_alloc` gives a file the first free block of the volume, number 0, in a table entry that
lists its cluster and nothing else (`devFileAlloc_eq`). -/

namespace Fcfs.Vol

open Lib.Bytes

/-! ### The first free block -/

theorem devFreeCluster_eq {a : Args} {d : Dev} {bm : ℕ → UInt8} (hm : Mounted a d)
    (hag : Agree a d bm) {p : ℤ × ℕ} {rest : List (ℤ × ℕ)} (h : freeBlks a (tab a d) = p :: rest) :
    devFreeCluster a bm = p.1 ∧ ∃ bs, devGetBlocks (ctable a d p.1) 0 = p.2 :: bs := by
  have hall := devFreeBlocks_eq hm hag (le_refl 1) (by rw [h]; simp)
  obtain ⟨h1, hc, -⟩ := freeBlk_in (show p ∈ freeBlks a (tab a d) by rw [h]; simp)
  rw [h] at hall
  unfold devFreeBlocks at hall
  obtain ⟨l, hl, hall⟩ := Option.bind_eq_some_iff.mp hall
  rw [if_neg (by omega)] at hall
  obtain rfl : l = [node0 p] := (Prod.mk.inj (Option.some.inj hall)).1
  unfold freeBlocksLoop at hl
  rw [if_pos (by simp)] at hl
  obtain ⟨bl, hbl, hl⟩ := Option.bind_eq_some_iff.mp hl
  unfold freeBlocksLoop at hl
  simp only [List.length_nil, Nat.sub_zero, List.nil_append] at hl
  cases hblks : devGetBlocks bl 0 with
  | nil =>
    rw [hblks] at hl
    simp at hl
  | cons b bs =>
    rw [hblks] at hl
    simp only [List.take_succ_cons, List.take_zero, List.map_cons, List.map_nil,
      List.length_singleton, lt_irrefl, if_false] at hl
    have hnode := List.head_eq_of_cons_eq (Option.some.inj hl)
    have hcid : devFreeClusterFrom a bm 0 = p.1 := congrArg BlkInfo.cid hnode
    have hbid : b = p.2 := congrArg BlkInfo.bid hnode
    rw [hcid, hm.devReadCtable_eq (by omega) hc] at hbl
    obtain rfl := Option.some.inj hbl
    exact ⟨hcid, bs, by rw [hblks, hbid]⟩

/-- **A block taken** is one free block less. -/
theorem freeUpTo_taken {T T' : ℤ → Fin 7 → BlkEnt} {p : ℤ × ℕ} {x : BlkEnt} (hx : x.fid ≠ 0)
    (hT : ∀ c i, T' c i = if (c, i.val + 1) = p then x else T c i) (k : ℕ) :
    freeUpTo T' k = (freeUpTo T k).filter fun q => decide (q ≠ p) := by
  have hbids : ∀ c, clusterBids T' 0 c = (clusterBids T 0 c).filter fun q => decide (q ≠ p) := by
    intro c
    unfold clusterBids ownBids
    rw [List.map_map, List.map_map, List.filter_map, List.filter_filter]
    congr 1
    refine List.filter_congr fun i _ => ?_
    rw [hT]
    by_cases hp : (c, i.val + 1) = p
    · have hne : ¬ u32 0 = x.fid := fun h => hx h.symm
      simp [hp, hne]
    · simp [hp]
  induction k with
  | zero => rfl
  | succ k ih => rw [freeUpTo_succ, freeUpTo_succ, List.filter_append, ih, hbids]

theorem freeBlks_taken {a : Args} {T T' : ℤ → Fin 7 → BlkEnt} {p : ℤ × ℕ} {rest : List (ℤ × ℕ)}
    {x : BlkEnt} (h : freeBlks a T = p :: rest) (hx : x.fid ≠ 0)
    (hT : ∀ c i, T' c i = if (c, i.val + 1) = p then x else T c i) : freeBlks a T' = rest := by
  have hnd : (freeBlks a T).Nodup := nodup_freeUpTo _ _
  have heq : freeBlks a T' = (freeBlks a T).filter fun q => decide (q ≠ p) := freeUpTo_taken hx hT _
  rw [h] at hnd
  rw [heq, h, List.filter_cons_of_neg (by simp), List.filter_eq_self]
  intro q hq
  have hne : q ≠ p := fun hqp => (List.nodup_cons.mp hnd).1 (hqp ▸ hq)
  simpa using hne

/-! ### Allocating -/

/-- The cluster list of a file for which the number `c` has been stored. -/
def slotClrs (c : ℤ) : List ℤ := if c % 65536 = 0 then [] else [c % 65536]

theorem toNat_u16 (c : ℤ) : ((u16 c).toNat : ℤ) = c % 65536 := by
  unfold u16
  rw [UInt16.toNat_ofNat']
  omega

theorem slotClrs_of_lt {c : ℤ} (h1 : 1 ≤ c) (hc : c < 65536) : slotClrs c = [c] := by
  unfold slotClrs
  rw [Int.emod_eq_of_lt (by omega) hc, if_neg (by omega)]

/-- The state with another entry for the file. -/
def setEntry (s : St) (f : ℤ) (e : TableEntry) : St :=
  { s with fsTable := { s.fsTable with entrs := Function.update s.fsTable.entrs f e } }

/-- The entry of a file with one link and one cluster. -/
def firstEntry (c : ℤ) : TableEntry := ⟨1, Function.update (fun _ => 0) 0 (u16 c)⟩

section Entry
variable (s : St) (f : ℤ) (e : TableEntry)

@[simp] theorem setEntry_dev : (setEntry s f e).dev = s.dev := rfl
@[simp] theorem setEntry_fsBitmap : (setEntry s f e).fsBitmap = s.fsBitmap := rfl
@[simp] theorem setEntry_mapSeq : (setEntry s f e).mapSeq = s.mapSeq := rfl
@[simp] theorem setEntry_mapFid : (setEntry s f e).mapFid = s.mapFid := rfl
@[simp] theorem setEntry_clrsCache : (setEntry s f e).clrsCache = s.clrsCache := rfl

@[simp] theorem setEntry_self : (setEntry s f e).fsTable.entrs f = e := Function.update_self _ _ _

theorem setEntry_other {g : ℤ} (h : g ≠ f) : (setEntry s f e).fsTable.entrs g = s.fsTable.entrs g :=
  Function.update_of_ne h _ _

end Entry

theorem onFile_setEntry {a : Args} {s : St} {f : ℤ} {e : TableEntry} (hm : Mounted a s.dev)
    (hag : Agree a s.dev s.fsBitmap)
    (he : ((e.clrs 13).toNat : ℤ) = secAddr s.fsTable f ∨ (e.clrs 13).toNat = 0) :
    OnFile a f s (setEntry s f e) := by
  refine ⟨hm, hag, rfl, Or.inl rfl, fun _ _ => rfl, fun g hg => setEntry_other s f e hg, ?_,
    fun _ _ => Or.inl rfl, fun _ _ => Or.inl rfl, [], rfl, fun _ he => absurd he List.not_mem_nil⟩
  unfold secAddr
  rw [setEntry_self]
  rcases he with he | he
  · exact Or.inl he
  · exact Or.inr (Or.inl (by rw [he]; rfl))

/-- **What allocating a file does**: the block `p` is its block number 0. -/
structure Alloced (a : Args) (f : ℤ) (p : ℤ × ℕ) (s s' : St) : Prop where
  mounted : Mounted a s'.dev
  agree : Agree a s'.dev s'.fsBitmap
  mem : s' = { setEntry s f (firstEntry p.1) with dev := s'.dev, fsBitmap := s'.fsBitmap }
  tabs : ∀ c i, tab a s'.dev c i = if (c, i.val + 1) = p then ⟨u32 f, 0⟩ else tab a s.dev c i
  blks : data a s'.dev = data a s.dev
  log : ∃ new, devLog s' = new ++ devLog s ∧ ∀ e ∈ new, 1 ≤ e.1 ∧ e.2 = 0

section Alloc
variable {a : Args} {s : St} {f : ℤ} {p : ℤ × ℕ}

/-- **`dev_file_alloc` takes the first free block.** -/
theorem devFileAlloc_eq (hm : Mounted a s.dev) (hag : Agree a s.dev s.fsBitmap)
    {rest : List (ℤ × ℕ)} (h : freeBlks a (tab a s.dev) = p :: rest) :
    ∃ s', devFileAlloc a s f = some (0, s') ∧ Alloced a f p s s' := by
  obtain ⟨hclu, bs, hblks⟩ := devFreeCluster_eq hm hag h
  obtain ⟨h1, hc, hb1, hb7, -⟩ := freeBlk_in (show p ∈ freeBlks a (tab a s.dev) by rw [h]; simp)
  obtain ⟨d, bm, hop, hm', ht, hd, hlog, hbit⟩ := writeCtable_updBitmap
    (s := setEntry s f (firstEntry p.1)) hm ((ctable a s.dev p.1).set p.2 (u32 f) 0)
    (show 0 ≤ p.1 by omega) hc
  have hag' : Agree a d bm := hag.update (by omega) ht hbit
  obtain ⟨htab, hdata⟩ := views_putTable hm' (setEntry s f (firstEntry p.1)).fsTable
  refine ⟨{ setEntry s f (firstEntry p.1) with
      dev := putTable a d (setEntry s f (firstEntry p.1)).fsTable, fsBitmap := bm }, ?_,
    ⟨hm'.putTable _, hag'.congr htab, rfl, fun c i => ?_, hdata.trans hd, [(p.1, 0)], hlog,
      fun e he => ?_⟩⟩
  · have hent : setEntry (setEntry s f TableEntry.zero) f (firstEntry p.1) =
        setEntry s f (firstEntry p.1) := by
      unfold setEntry
      rw [Function.update_idem]
    rw [devWriteCtable_putTab (s := setEntry s f (firstEntry p.1)) hm _ (by omega) hc,
      Option.bind_eq_bind, Option.bind_some] at hop
    unfold devFileAlloc
    show (if devFreeCluster a s.fsBitmap ≤ 0 then _ else _) = _
    rw [hclu, if_neg (by omega)]
    show (devReadCtable a s.dev p.1 >>= fun bl => _) = _
    rw [hm.devReadCtable_eq (by omega) hc, Option.bind_eq_bind, Option.bind_some]
    simp only [hblks]
    refine Option.bind_eq_some_iff.mpr ⟨(-1, { setEntry s f (firstEntry p.1) with
      dev := putTab a s.dev p.1 ((ctable a s.dev p.1).set p.2 (u32 f) 0) }), ?_, ?_⟩
    · rw [← hent]
      exact devWriteCtable_putTab (s := setEntry (setEntry s f TableEntry.zero) f (firstEntry p.1))
        hm _ (by omega) hc
    · refine Option.bind_eq_some_iff.mpr ⟨_, hop, ?_⟩
      rw [devWriteTable_dev hm' rfl]
  · show tab a (putTable a d (setEntry s f (firstEntry p.1)).fsTable) c i = _
    rw [htab, ht]
    by_cases hcp : c = p.1
    · rw [hcp, Function.update_self, BlockList.set_entrs]
      by_cases hi : i.val + 1 = p.2
      · rw [if_pos hi, if_pos (show (p.1, i.val + 1) = p from Prod.ext rfl hi)]
      · rw [if_neg hi, if_neg fun heq => hi (congrArg Prod.snd heq)]
        rfl
    · rw [Function.update_of_ne hcp, if_neg fun heq => hcp (congrArg Prod.fst heq)]
      rfl
  · rw [List.mem_singleton.mp he]
    exact ⟨h1, rfl⟩

theorem Alloced.table {s' : St} (h : Alloced a f p s s') :
    s'.fsTable = (setEntry s f (firstEntry p.1)).fsTable := by rw [h.mem]

theorem secAddr_firstEntry {t : FcfsTable} {c : ℤ} (h : t.entrs f = firstEntry c) :
    secAddr t f = 0 := by
  unfold secAddr
  rw [h]
  rfl

/-- Allocating works on the file, also when its old entry is not looked at. -/
theorem Alloced.onFile {s' : St} (h : Alloced a f p s s') {e : TableEntry}
    (hfree : 1 ≤ p.1 ∧ ∀ i : Fin 7, p.2 = i.val + 1 → (tab a s.dev p.1 i).fid = 0) :
    OnFile a f (setEntry s f e) s' := by
  have htab := h.table
  have hmem := h.mem
  obtain ⟨new, hlog, hnew⟩ := h.log
  refine ⟨h.mounted, h.agree, by rw [hmem]; rfl, Or.inl (by rw [hmem]; rfl),
    fun g _ => by rw [hmem]; rfl, fun g hg => ?_, Or.inr (Or.inl ?_), fun c i => ?_,
    fun c b => Or.inl (by rw [h.blks]; rfl), new, hlog, fun e he => Or.inl (hnew e he)⟩
  · rw [htab, setEntry_other _ _ _ hg, setEntry_other _ _ _ hg]
  · exact secAddr_firstEntry (c := p.1) (by rw [htab, setEntry_self])
  · rw [h.tabs]
    by_cases hp : (c, i.val + 1) = p
    · rw [if_pos hp]
      subst hp
      exact Or.inr ⟨hfree.1, Or.inl (hfree.2 i rfl), Or.inl (Or.inr rfl)⟩
    · rw [if_neg hp]
      exact Or.inl rfl

/-- **The new file has one block.** -/
theorem Alloced.nodesAt {s' : St} (h : Alloced a f p s s') (hf : f ≠ 0) (h1 : 1 ≤ p.1)
    (hc : p.1 < a.cluCnt) (hb : 1 ≤ p.2 ∧ p.2 ≤ 7)
    (hno : ∀ c : ℤ, 0 ≤ c → c < a.cluCnt → ∀ i, (tab a s.dev c i).fid ≠ u32 f) :
    nodesAt a (tab a s'.dev) f = [⟨p.1, p.2, 0⟩] := by
  have hmem : ∀ b, b ∈ Vol.nodesAt a (tab a s'.dev) f ↔ b ∈ [(⟨p.1, p.2, 0⟩ : BlkInfo)] := by
    intro b
    rw [mem_nodesAt hf, List.mem_singleton]
    constructor
    · rintro ⟨⟨hb1, hbc⟩, i, hi, hfid, hnum⟩
      rw [h.tabs] at hfid hnum
      by_cases hp : (b.cid, i.val + 1) = p
      · rw [if_pos hp] at hnum
        rw [← hp]
        obtain ⟨bc, bb, bn⟩ := b
        simp only at hi hnum ⊢
        rw [hi, hnum]
        rfl
      · rw [if_neg hp] at hfid
        exact absurd hfid (hno _ (by omega) hbc i)
    · rintro rfl
      refine ⟨⟨h1, hc⟩, ⟨p.2 - 1, by omega⟩, by simp only; omega, ?_⟩
      have hp : (p.1, p.2 - 1 + 1) = p := Prod.ext rfl (by simp only; omega)
      simp only [h.tabs, hp, if_true]
      exact ⟨trivial, rfl⟩
  exact List.perm_singleton.mp (perm_of_mem (nodup_nodesAt _ _ _) (List.nodup_singleton _) hmem)

/-- **What is stored of the number**, whatever it is. -/
theorem Alloced.stored_slot {s' : St} (h : Alloced a f p s s') (h1 : 1 ≤ p.1) (hc : p.1 < a.cluCnt)
    (hL : 1024 ≤ a.lblkSz) : Stored a s'.dev s'.fsTable f (slotClrs p.1) := by
  have hent : s'.fsTable.entrs f = firstEntry p.1 := by rw [h.table, setEntry_self]
  have hsec : secAddr s'.fsTable f = 0 := secAddr_firstEntry hent
  have hlen : (slotClrs p.1).length ≤ 1 := by
    unfold slotClrs
    split_ifs
    · exact Nat.zero_le 1
    · exact le_refl 1
  refine ⟨⟨fun i _ => ?_, fun c hcl => ?_, ?_, fun _ => hsec, fun hlong => by omega⟩, by omega,
    fun hlong => by omega⟩
  · rw [hent]
    unfold firstEntry slotClrs
    cases i with
    | zero =>
      simp only [Function.update_self, toNat_u16]
      split_ifs with hz
      · exact hz
      · rfl
    | succ i =>
      simp only [Function.update_of_ne (Nat.succ_ne_zero i)]
      split_ifs <;> rfl
  · unfold slotClrs at hcl
    split_ifs at hcl with hz
    · cases hcl
    · rw [List.mem_singleton.mp hcl]
      omega
  · unfold s1Len
    omega

theorem Alloced.stored {s' : St} (h : Alloced a f p s s') (hsm : a.cluCnt ≤ 65535) (h1 : 1 ≤ p.1)
    (hc : p.1 < a.cluCnt) (hL : 1024 ≤ a.lblkSz) : Stored a s'.dev s'.fsTable f [p.1] :=
  slotClrs_of_lt h1 (show p.1 < 65536 by omega) ▸ h.stored_slot h1 hc hL

end Alloc

end Fcfs.Vol
