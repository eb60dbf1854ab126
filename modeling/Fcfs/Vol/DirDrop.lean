import Fcfs.Vol.DirWrite
import Fcfs.Vol.Eof
import Mathlib.Data.List.Perm.Basic

/-! # Taking an entry out of a directory

`dev_rm_from_dir` writes the last record over the one it has been asked to remove and the records but
the last back (`dropEntry_perm`). What is read afterwards are the other entries
(`removesEntry_of_listsExact`), whichever of them was hit. -/

namespace Fcfs.Vol

open Lib.Bytes Lib.Paged

/-- The entry is taken out, and the last one stands in its place. -/
theorem dropEntry_perm {dirs ent : List DirEntry} {x : ℤ} (h : dropEntry dirs x = some ent) :
    ∃ e ∈ dirs, fidOf e = x ∧ (e :: ent).Perm dirs := by
  unfold dropEntry at h
  cases hfind : dirs.findIdx? fun e => (e.fid.toNat : ℤ) == x with
  | none =>
    rw [hfind] at h
    cases h
  | some i =>
    rw [hfind] at h
    obtain rfl := Option.some.inj h
    obtain ⟨hi, hx, -⟩ := List.findIdx?_eq_some_iff_getElem.mp hfind
    refine ⟨dirs[i], List.getElem_mem hi, eq_of_beq hx, ?_⟩
    have hne : dirs ≠ [] := List.ne_nil_of_length_pos (by omega)
    obtain ⟨pre, last, rfl⟩ : ∃ pre last, dirs = pre ++ [last] :=
      ⟨dirs.dropLast, dirs.getLast hne, (List.dropLast_append_getLast hne).symm⟩
    rw [List.length_append, List.length_singleton] at hi ⊢
    rw [List.getLastD_concat, Nat.add_sub_cancel]
    by_cases hlt : i < pre.length
    · have hswap := List.getD_set_perm_cons pre i last
      rw [List.getElem?_eq_getElem hlt, Option.getD_some] at hswap
      rw [List.set_append_left _ _ hlt, List.take_left' (by rw [List.length_set]), List.getElem_append_left hlt]
      exact hswap.trans (List.perm_append_singleton last pre).symm
    · -- it was the last one
      obtain rfl : i = pre.length := by omega
      rw [List.set_append_right _ _ (le_refl _), List.take_left' rfl, List.getElem_append_right (le_refl _)]
      simp only [Nat.sub_self, List.getElem_cons_zero]
      exact (List.perm_append_singleton last pre).symm

theorem dropEntry_none {dirs : List DirEntry} {x : ℤ} :
    dropEntry dirs x = none ↔ ∀ e ∈ dirs, fidOf e ≠ x := by
  unfold dropEntry
  cases hfind : dirs.findIdx? fun e => (e.fid.toNat : ℤ) == x with
  | none =>
    refine ⟨fun _ e he heq => ?_, fun _ => rfl⟩
    have hne := List.findIdx?_eq_none_iff.mp hfind e he
    rw [show ((e.fid.toNat : ℤ) == x) = true from beq_iff_eq.mpr heq] at hne
    cases hne
  | some i =>
    obtain ⟨hi, hx, -⟩ := List.findIdx?_eq_some_iff_getElem.mp hfind
    refine ⟨fun h => ?_, fun h => absurd (eq_of_beq hx) (h _ (List.getElem_mem hi))⟩
    cases h

/-! ### What is read afterwards -/

/-- `dev_read_dir` returns these entries, and a null pointer when there are none. -/
def ReadsAs (a : Args) (s : St) (d : ℤ) (ents : List DirEntry) : Prop :=
  ∃ t, devReadDir a s d = some (if ents = [] then none else some ents, t)

theorem ReadsAs.eq {a : Args} {s t : St} {d : ℤ} {ents : List DirEntry} {old : Option (List DirEntry)}
    (h : ReadsAs a s d ents) (hread : devReadDir a s d = some (old, t)) : ents = old.getD [] := by
  obtain ⟨u, hu⟩ := h
  obtain ⟨rfl, -⟩ := Prod.mk.inj (Option.some.inj (hread.symm.trans hu))
  split_ifs with hnil
  · exact hnil
  · rfl

/-- The entries in the buffer that has been written are read. -/
theorem readsAs_written {a : Args} {s : St} {d : ℤ} {l : List BlkInfo} {ent : List DirEntry}
    (hm : Mounted a s.dev) (hcached : s.mapSeq d = some l) (hok : SeqOk a l)
    (hfit : ent.length * 64 + 4 ≤ l.length * a.lblkSz)
    (hcont : ∀ k < l.length * a.lblkSz, content a s.dev l k = dirBuf a ent k) : ReadsAs a s d ent := by
  have hbytes := hok.bytes_lt hm
  obtain ⟨hent, hsz⟩ := entriesOf_written hcont hfit (by omega)
  refine ⟨s, ?_⟩
  rw [devReadDir_seq hm (devGetFileSeq_cached hcached) hok (by rw [hsz]; omega), hent, hsz]
  by_cases hnil : ent = []
  · rw [if_pos hnil, hnil]
    rfl
  · have hpos := List.length_pos_iff.mpr hnil
    rw [if_neg hnil, if_neg (by omega)]

/-- **The entry is removed and no other**: of the entries `old`, pairwise for different files, those
that are not for `x` are left, or all of them when none is. -/
structure RemovesEntry (a : Args) (s : St) (d x : ℤ) (old : List DirEntry) (r : ℤ) (s' : St) : Prop where
  hit : (∃ e ∈ old, fidOf e = x) → r = 0 ∧ ∃ new, ReadsAs a s' d new ∧ new.length = old.length - 1 ∧
    new.Perm (old.filter fun e => fidOf e ≠ x)
  miss : (∀ e ∈ old, fidOf e ≠ x) → r = -1 ∧ s'.dev = s.dev ∧
    (devReadDir a s' d).map Prod.fst = (devReadDir a s d).map Prod.fst
  list : (devGetFileSeq a s' d).map Prod.fst = (devGetFileSeq a s d).map Prod.fst
  bitmap : s'.fsBitmap = s.fsBitmap
  tabs : tab a s'.dev = tab a s.dev

section Remove
variable {a : Args} {s : St} {d : ℤ}

/-- A lookup that has been made is made again with the same result. -/
theorem devGetFileSeq_again {l : List BlkInfo} {t : St} (h : devGetFileSeq a s d = some (l, t)) :
    devGetFileSeq a t d = some (l, t) := devGetFileSeq_cached (lookup_cached h).1

theorem perm_filter_of_cons {e : DirEntry} {ent dirs : List DirEntry} {x : ℤ} (h : (e :: ent).Perm dirs)
    (hx : fidOf e = x) (honce : (dirs.map fidOf).count x ≤ 1) : ent.Perm (dirs.filter fun e => fidOf e ≠ x) := by
  have hcount := (h.map fidOf).count_eq x
  rw [List.map_cons, hx, List.count_cons_self] at hcount
  have hnone : x ∉ ent.map fidOf := List.count_eq_zero.mp (by omega)
  have hall : ent.filter (fun e => fidOf e ≠ x) = ent := by
    refine List.filter_eq_self.mpr fun e' he' => ?_
    have hne : fidOf e' ≠ x := fun heq => hnone (heq ▸ List.mem_map_of_mem he')
    exact decide_eq_true hne
  have hfilter := h.filter fun e => fidOf e ≠ x
  rw [List.filter_cons_of_neg (by simp [hx]), hall] at hfilter
  exact hfilter

/-- **A directory whose list is exact** is read, from the blocks `l`. -/
structure DirRead (a : Args) (d : ℤ) (l : List BlkInfo) (old : Option (List DirEntry)) (s t : St) : Prop where
  seq : devGetFileSeq a s d = some (l, t)
  ok : SeqOk a l
  size : 4 + leNat 4 (content a t.dev l) ≤ l.length * a.lblkSz
  dev : t.dev = s.dev
  bitmap : t.fsBitmap = s.fsBitmap
  read : devReadDir a s d = some (old, t)
  again : devReadDir a t d = some (old, t)
  entries : old.getD [] = entriesOf (content a t.dev l)

/-- What `dev_read_dir` returns for the contents `c`. -/
def readOf (c : Buf) : Option (List DirEntry) := if leNat 4 c = 0 then none else some (entriesOf c)

theorem DirRead.of_seq {l : List BlkInfo} {t : St} (hm : Mounted a s.dev)
    (hop : devGetFileSeq a s d = some (l, t)) (hok : SeqOk a l)
    (hsz : 4 + leNat 4 (content a s.dev l) ≤ l.length * a.lblkSz) :
    DirRead a d l (readOf (content a s.dev l)) s t := by
  have hdev : t.dev = s.dev ∧ t.fsBitmap = s.fsBitmap := by
    obtain ⟨c, rfl, -⟩ := devGetFileSeq_frame hop
    exact ⟨rfl, rfl⟩
  have hmt : Mounted a t.dev := hdev.1 ▸ hm
  rw [← hdev.1] at hsz ⊢
  refine ⟨hop, hok, hsz, hdev.1, hdev.2, devReadDir_seq hmt hop hok hsz,
    devReadDir_seq hmt (devGetFileSeq_again hop) hok hsz, ?_⟩
  unfold readOf
  split_ifs with h0
  · exact (entriesOf_nil h0).symm
  · rfl

theorem ListsExact.dirRead (hm : Mounted a s.dev) (hl : ListsExact a s) (hd : Live s.fsTable d) :
    ∃ l old t, DirRead a d l old s t := by
  obtain ⟨l, t, hop, hseq, -, hsz⟩ := hl d hd
  exact ⟨l, _, t, DirRead.of_seq hm hop hseq hsz⟩

variable {x : ℤ} {l : List BlkInfo} {old : Option (List DirEntry)} {t : St}

theorem DirRead.miss (h : DirRead a d l old s t) (hdrop : dropEntry (old.getD []) x = none) :
    devRmFromDir a s d x = some (-1, t) ∧ RemovesEntry a s d x (old.getD []) (-1) t := by
  have hno := dropEntry_none.mp hdrop
  refine ⟨?_, ⟨fun hex => ?_, fun _ => ⟨rfl, h.dev, ?_⟩, ?_, h.bitmap, ?_⟩⟩
  · refine Option.bind_eq_some_iff.mpr ⟨_, h.read, ?_⟩
    dsimp only
    rw [hdrop]
  · obtain ⟨e, he, heq⟩ := hex
    exact absurd heq (hno e he)
  · rw [h.read, h.again]
  · rw [h.seq, devGetFileSeq_again h.seq]
  · rw [h.dev]

/-- The entry is there: the others are written into the same blocks. -/
theorem DirRead.hit (hm : Mounted a s.dev) (h : DirRead a d l old s t) {ent : List DirEntry}
    (hdrop : dropEntry (old.getD []) x = some ent) :
    ∃ s', devRmFromDir a s d x = some (0, s') ∧ Wrote a l t s' ∧ s'.mapSeq d = some l ∧
      ent.length * 64 + 4 ≤ l.length * a.lblkSz ∧
      ∀ k < l.length * a.lblkSz, content a s'.dev l k = dirBuf a ent k := by
  have hmt : Mounted a t.dev := h.dev ▸ hm
  have hL : 1024 ≤ a.lblkSz := hm.geo.le_lblkSz
  have hbytes := h.ok.bytes_lt hm
  have hsize := h.size
  obtain ⟨e, he, hx, hperm⟩ := dropEntry_perm hdrop
  -- the entries that are left fit into the blocks
  have hlen : ent.length + 1 = (old.getD []).length := hperm.length_eq
  have hold : (old.getD []).length = leNat 4 (content a t.dev l) / 64 := by
    rw [h.entries]
    unfold entriesOf
    rw [List.length_map, List.length_range]
  have hneed : dirNeed a ent.length ≤ l.length := by
    unfold dirNeed
    rw [toBlkCnt_eq (by omega)]
    exact Int.ofNat_le.mpr ((pages_le_iff (by omega)).mpr (by omega))
  have hgrow : growTo a t l (dirNeed a ent.length) d = some ((l.length : ℤ), l, t) :=
    if_neg (not_lt.mpr hneed)
  obtain ⟨r, s', hwrite, hw, hfit, hcont⟩ := devWriteDir_seq hmt (devGetFileSeq_again h.seq) hgrow h.ok hneed
  have hcached : s'.mapSeq d = some l := by
    rw [hw.mem]
    exact (lookup_cached h.seq).1
  refine ⟨s', ?_, hw, hcached, hfit, hcont⟩
  refine Option.bind_eq_some_iff.mpr ⟨_, h.read, ?_⟩
  dsimp only
  rw [hdrop]
  exact Option.bind_eq_some_iff.mpr ⟨_, hwrite, rfl⟩

theorem DirRead.removes (hm : Mounted a s.dev) (h : DirRead a d l old s t) {ent : List DirEntry}
    (honce : ((old.getD []).map fidOf).count x ≤ 1) (hdrop : dropEntry (old.getD []) x = some ent) :
    ∃ s', devRmFromDir a s d x = some (0, s') ∧ RemovesEntry a s d x (old.getD []) 0 s' := by
  obtain ⟨s', hop, hw, hcached, hfit, hcont⟩ := h.hit hm hdrop
  have hback := readsAs_written hw.mounted hcached h.ok hfit hcont
  obtain ⟨e, he, hx, hperm⟩ := dropEntry_perm hdrop
  have hlen : ent.length + 1 = (old.getD []).length := hperm.length_eq
  have hmem := hw.mem
  refine ⟨s', hop, ⟨fun _ => ⟨rfl, ent, hback, by omega, perm_filter_of_cons hperm hx honce⟩,
    fun hno => absurd hx (hno e he), ?_, ?_, ?_⟩⟩
  · rw [h.seq, devGetFileSeq_cached hcached]
    rfl
  · rw [hmem]
    exact h.bitmap
  · rw [hw.tabs, h.dev]

/-- **`dev_rm_from_dir` removes exactly the entry.** -/
theorem removesEntry_of_listsExact (hm : Mounted a s.dev) (hl : ListsExact a s) (hd : Live s.fsTable d)
    (x : ℤ) : ∃ old t, devReadDir a s d = some (old, t) ∧ (((old.getD []).map fidOf).Nodup →
      ∃ r s', devRmFromDir a s d x = some (r, s') ∧ RemovesEntry a s d x (old.getD []) r s') := by
  obtain ⟨l, old, t, h⟩ := hl.dirRead hm hd
  refine ⟨old, t, h.read, fun hnd => ?_⟩
  cases hdrop : dropEntry (old.getD []) x with
  | none => exact ⟨-1, t, h.miss hdrop⟩
  | some ent =>
    obtain ⟨s', hop, hrm⟩ := h.removes hm (List.nodup_iff_count_le_one.mp hnd x) hdrop
    exact ⟨0, s', hop, hrm⟩

end Remove

/-! ### A directory with three entries -/

/-- The entry for file 2. -/
def secondEntry : DirEntry := ⟨2, 0, 0, 0, 0, fun _ => 97⟩

/-- It stands between those for two others. -/
def listedEntries : List DirEntry :=
  [⟨3, 0, 0, 0, 0, fun _ => 98⟩, secondEntry, ⟨4, 0, 0, 0, 0, fun _ => 99⟩]

/-- The block of file 1 lists them. -/
def listedData (c b : ℕ) : Buf := if c = 1 ∧ b = 1 then dirBuf sevenArgs listedEntries else fun _ => 0

/-- A volume where file 1 is a directory and file 2 in the middle of it. -/
def sevenListed : St := pairSt listedData

theorem consistent_sevenListed : Consistent sevenArgs sevenListed := by
  have hsz : leNat 4 (listedData 1 1) = 192 := leNat_dirBuf (by decide)
  exact consistent_pairSt _ (by decide) (by rw [hsz]; decide) (by decide)

theorem devReadDir_sevenListed :
    ∃ t, devReadDir sevenArgs sevenListed 1 = some (some listedEntries, t) := by
  have hm : Mounted sevenArgs sevenListed.dev := mounted_sevenSt _ _ _ _
  obtain ⟨t, hop, hfile⟩ := file_pairSt listedData (Or.inl rfl)
  have hdev : t.dev = sevenListed.dev := by
    obtain ⟨c, rfl, -⟩ := devGetFileSeq_frame hop
    rfl
  have hcont : ∀ k < 1024, content sevenArgs t.dev (sortNodes (sevenNodes pairTab 1 [1])) k =
      dirBuf sevenArgs listedEntries k := by
    rw [hdev]
    exact fun k hk => content_sevenSt hfile.seqOk (node_pairSt (Or.inl rfl)) rfl hk
  obtain ⟨hent, hsz⟩ := entriesOf_written hcont (by decide) (by decide)
  have hread := devReadDir_seq (hdev ▸ hm) hop hfile.seqOk (by
    rw [hsz, (sortNodes_perm _).length_eq]
    decide)
  rw [hent, hsz] at hread
  exact ⟨t, hread⟩

/-- The entry in the middle is taken out. -/
theorem removesEntry_sevenListed :
    ∃ r s', devRmFromDir sevenArgs sevenListed 1 2 = some (r, s') ∧
      RemovesEntry sevenArgs sevenListed 1 2 listedEntries r s' := by
  obtain ⟨old, t, hread, h⟩ := removesEntry_of_listsExact (mounted_sevenSt _ _ _ _)
    (consistent_sevenListed.listsExact (by decide)) ((live_pairSt listedData (by decide)).mpr (Or.inl rfl)) 2
  obtain ⟨t', hread'⟩ := devReadDir_sevenListed
  obtain rfl := (Prod.mk.inj (Option.some.inj (hread'.symm.trans hread))).1
  exact h (by decide)

end Fcfs.Vol
