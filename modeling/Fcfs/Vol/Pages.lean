import Fcfs.Lib.Paged
import Fcfs.Vol.Seq

/-! # The pages of a file

Through a block list whose nodes are numbered from 0 (`SeqOk`) the driver sees a file as a sequence
of pages, `page`. The order of the nodes does not matter: `dev_read_by_id` and `dev_write_by_id`
read and write one page (`devReadById_eq`, `devWriteById_eq`), and the loops of `ops_read`,
`ops_write`, `dev_read_dir` and `dev_write_dir` are a fetch and a store of consecutive pages
(`readLoop_eq`, `writeLoop_eq`). Nothing else changes: `Wrote` says what a data write leaves as it
was. -/

namespace Fcfs.Vol

open Lib.Bytes Lib.Paged

/-- **A block list the lookups can work with**: blocks of the volume, each named once, numbered
from 0. -/
structure SeqOk (a : Args) (l : List BlkInfo) : Prop where
  inVol : ∀ b ∈ l, 0 ≤ b.cid ∧ b.cid < a.cluCnt ∧ 1 ≤ b.bid ∧ b.bid ≤ 7
  nodup : (l.map blkOf).Nodup
  nums : (l.map BlkInfo.num).Perm (List.range l.length)

section SeqOk
variable {a : Args} {l : List BlkInfo} (h : SeqOk a l)
include h

theorem SeqOk.exists_num {k : ℕ} (hk : k < l.length) : ∃ b ∈ l, b.num = k :=
  List.mem_map.mp (h.nums.mem_iff.mpr (List.mem_range.mpr hk))

theorem SeqOk.num_lt {b : BlkInfo} (hb : b ∈ l) : b.num < l.length :=
  List.mem_range.mp (h.nums.mem_iff.mp (List.mem_map_of_mem hb))

theorem SeqOk.num_inj {b b' : BlkInfo} (hb : b ∈ l) (hb' : b' ∈ l) (heq : b.num = b'.num) :
    b = b' :=
  List.inj_on_of_nodup_map (h.nums.nodup_iff.mpr List.nodup_range) hb hb' heq

theorem SeqOk.blk_inj {b b' : BlkInfo} (hb : b ∈ l) (hb' : b' ∈ l) (heq : blkOf b = blkOf b') :
    b = b' :=
  List.inj_on_of_nodup_map h.nodup hb hb' heq

theorem SeqOk.blk {b : BlkInfo} (hb : b ∈ l) : InVol a b.cid b.bid ∧ 1 ≤ b.bid := by
  obtain ⟨h0, hc, h1, h7⟩ := h.inVol b hb
  exact ⟨⟨h0, hc, by unfold bloksPerCluster; omega⟩, h1⟩

theorem SeqOk.find {b : BlkInfo} (hb : b ∈ l) : (l.find? fun x => x.num == b.num) = some b := by
  obtain ⟨x, hx⟩ : ∃ x, (l.find? fun x => x.num == b.num) = some x := by
    rw [← Option.isSome_iff_exists, List.find?_isSome]
    exact ⟨b, hb, by simp⟩
  have hnum : x.num = b.num := by simpa using List.find?_some hx
  rw [hx, h.num_inj (List.mem_of_find?_eq_some hx) hb hnum]

end SeqOk

/-! ### Lookups -/

theorem seqFind_eq (id : ℤ) : ∀ l : List BlkInfo,
    seqFind l l.length id = some (l.find? fun b => decide ((b.num : ℤ) = id))
  | [] => rfl
  | b :: l => by
    rw [List.length_cons, List.find?_cons]
    unfold seqFind
    by_cases hb : (b.num : ℤ) = id
    · rw [if_pos hb, decide_eq_true hb]
    · rw [if_neg hb, decide_eq_false hb, seqFind_eq id l]

section Lookup
variable {a : Args} {l : List BlkInfo} (h : SeqOk a l)
include h

theorem seqLookup_hit {b : BlkInfo} (hb : b ∈ l) : seqLookup l l.length b.num = some (some b) := by
  have hpos : 0 < l.length := List.length_pos_of_mem hb
  have hfind : (l.find? fun x => decide ((x.num : ℤ) = b.num)) = some b := by
    rw [← h.find hb]
    congr 1
    funext x
    rw [Bool.eq_iff_iff, decide_eq_true_iff, beq_iff_eq, Int.natCast_inj]
  have hc := (h.inVol b hb).1
  unfold seqLookup
  rw [if_neg (by omega), Int.toNat_natCast, seqFind_eq, hfind]
  simp only [Option.bind_eq_bind, Option.bind_some]
  rw [if_neg (by omega)]

theorem seqLookup_miss {id : ℤ} (hid : id < 0 ∨ l.length ≤ id) :
    seqLookup l l.length id = some none := by
  have hfind : (l.find? fun x => decide ((x.num : ℤ) = id)) = none := by
    refine List.find?_eq_none.mpr fun x hx => ?_
    have := h.num_lt hx
    rw [decide_eq_true_iff]
    omega
  unfold seqLookup
  split_ifs
  · rfl
  · rw [Int.toNat_natCast, seqFind_eq, hfind]
    rfl

end Lookup

/-! ### Pages -/

/-- The contents of block number `k`. -/
def page (a : Args) (d : Dev) (l : List BlkInfo) (k : ℕ) : Buf :=
  match l.find? fun b => b.num == k with
  | some b => a.ciph.decrypt a.lblkSz (data a d b.cid b.bid)
  | none => fun _ => 0

/-- **The contents of a file**: the size header and what follows it. -/
def content (a : Args) (d : Dev) (l : List BlkInfo) : Buf := flat a.lblkSz (page a d l)

section Page
variable {a : Args} {d d' : Dev} {l : List BlkInfo}

theorem page_of_mem (h : SeqOk a l) (d : Dev) {b : BlkInfo} (hb : b ∈ l) :
    page a d l b.num = a.ciph.decrypt a.lblkSz (data a d b.cid b.bid) := by
  unfold page
  rw [h.find hb]

theorem page_congr (h : ∀ b ∈ l, data a d' b.cid b.bid = data a d b.cid b.bid) :
    page a d' l = page a d l := by
  funext k
  unfold page
  cases hf : l.find? fun b => b.num == k with
  | none => rfl
  | some b => simp only [h b (List.mem_of_find?_eq_some hf)]

theorem content_congr (h : ∀ b ∈ l, data a d' b.cid b.bid = data a d b.cid b.bid) :
    content a d' l = content a d l := by
  unfold content
  rw [page_congr h]

theorem page_putBlk (h : SeqOk a l) {b : BlkInfo} (hb : b ∈ l) (buf : Buf) :
    page a (putBlk a d b.cid b.bid (a.ciph.encrypt a.lblkSz buf)) l =
      Function.update (page a d l) b.num (cut a.lblkSz buf) := by
  obtain ⟨hin, h1⟩ := h.blk hb
  have hdata := data_putBlk (d := d) (a.ciph.encrypt a.lblkSz buf) hin h1
  funext k
  by_cases hk : k = b.num
  · rw [hk, Function.update_self, page_of_mem h _ hb, hdata]
    dsimp only
    rw [if_pos ⟨rfl, rfl⟩, Cipher.cut_encrypt, Cipher.decrypt_encrypt]
  · rw [Function.update_of_ne hk]
    unfold page
    cases hf : l.find? fun x => x.num == k with
    | none => rfl
    | some x =>
      have hx : x ∈ l := List.mem_of_find?_eq_some hf
      have hnum : x.num = k := by simpa using List.find?_some hf
      have hne : ¬ (x.cid = b.cid ∧ x.bid = b.bid) := fun heq =>
        hk (hnum.symm.trans (congrArg BlkInfo.num (h.blk_inj hx hb (Prod.ext heq.1 heq.2))))
      simp only [hdata, if_neg hne]

end Page

/-! ### One block -/

/-- **What writing to the blocks of a list leaves as it was.** -/
structure Wrote (a : Args) (l : List BlkInfo) (s s' : St) : Prop where
  mounted : Mounted a s'.dev
  tabs : tab a s'.dev = tab a s.dev
  blks : ∀ c b, (c, b) ∉ l.map blkOf → data a s'.dev c b = data a s.dev c b
  mem : s' = { s with dev := s'.dev }
  log : ∃ new, devLog s' = new ++ devLog s ∧ ∀ e ∈ new, e ∈ l.map blkOf

theorem Wrote.refl {a : Args} {s : St} (hm : Mounted a s.dev) (l : List BlkInfo) : Wrote a l s s :=
  ⟨hm, rfl, fun _ _ _ => rfl, rfl, [], rfl, fun _ he => absurd he List.not_mem_nil⟩

theorem Wrote.trans {a : Args} {l : List BlkInfo} {s t u : St} (h : Wrote a l s t)
    (h' : Wrote a l t u) : Wrote a l s u := by
  obtain ⟨new, hlog, hnew⟩ := h.log
  obtain ⟨new', hlog', hnew'⟩ := h'.log
  refine ⟨h'.mounted, h'.tabs.trans h.tabs, fun c b hb => (h'.blks c b hb).trans (h.blks c b hb), ?_,
    new' ++ new, by rw [hlog', hlog, List.append_assoc], fun e he => ?_⟩
  · have hmem := h'.mem
    rw [h.mem] at hmem
    exact hmem
  · rcases List.mem_append.mp he with he | he
    · exact hnew' e he
    · exact hnew e he

/-- The contents of a file none of whose blocks is among the written ones. -/
theorem Wrote.content {a : Args} {l l' : List BlkInfo} {s s' : St} (h : Wrote a l s s')
    (hdisj : ∀ b ∈ l', blkOf b ∉ l.map blkOf) : content a s'.dev l' = content a s.dev l' :=
  content_congr fun b hb => h.blks b.cid b.bid (hdisj b hb)

section Block
variable {a : Args} {l : List BlkInfo} (h : SeqOk a l)
include h

/-- **`dev_read_by_id` reads a page.** -/
theorem devReadById_eq {d : Dev} (hm : Mounted a d) {k : ℕ} (hk : k < l.length) :
    devReadById a d k l l.length = some (some (page a d l k)) := by
  obtain ⟨b, hb, rfl⟩ := h.exists_num hk
  obtain ⟨hin, h1⟩ := h.blk hb
  unfold devReadById
  rw [seqLookup_hit h hb]
  refine Option.bind_eq_some_iff.mpr ⟨_, rfl, ?_⟩
  rw [page_of_mem h _ hb]
  exact Option.bind_eq_some_iff.mpr ⟨_, hm.read_data hin h1 true, rfl⟩

theorem devReadById_miss (d : Dev) {id : ℤ} (hid : id < 0 ∨ l.length ≤ id) :
    devReadById a d id l l.length = some none := by
  unfold devReadById
  rw [seqLookup_miss h hid]
  rfl

/-- **`dev_write_by_id` writes a page.** -/
theorem devWriteById_eq {s : St} (hm : Mounted a s.dev) {k : ℕ} (hk : k < l.length) (buf : Buf) :
    ∃ s', devWriteById a s k buf l l.length = some (0, s') ∧ Wrote a l s s' ∧
      page a s'.dev l = Function.update (page a s.dev l) k (cut a.lblkSz buf) := by
  obtain ⟨b, hb, rfl⟩ := h.exists_num hk
  obtain ⟨hin, h1⟩ := h.blk hb
  have hblk : blkOf b ∈ l.map blkOf := List.mem_map_of_mem hb
  refine ⟨{ s with dev := putBlk a s.dev b.cid b.bid (a.ciph.encrypt a.lblkSz buf) }, ?_,
    ⟨hm.putBlk _ _ _, tab_putBlk hm _ hin h1, fun c k hck => ?_, rfl, [(b.cid, b.bid)], rfl,
      fun e he => ?_⟩, page_putBlk h hb buf⟩
  · unfold devWriteById
    rw [seqLookup_hit h hb]
    refine Option.bind_eq_some_iff.mpr ⟨_, rfl, ?_⟩
    exact Option.bind_eq_some_iff.mpr ⟨_, hm.write_crypt hin buf, rfl⟩
  · have hne : ¬ (c = b.cid ∧ k = b.bid) := fun heq => hck (by rw [heq.1, heq.2]; exact hblk)
    simp only [data_putBlk _ hin h1, if_neg hne]
  · rw [List.mem_singleton.mp he]
    exact hblk

/-! ### The loops -/

/-- **The read loop fetches pages.** -/
theorem readLoop_eq {d : Dev} (hm : Mounted a d) (first n : ℕ) : ∀ {i : ℕ} (tmp : Buf),
    first + i + n ≤ l.length → readLoop a d l l.length first n i tmp =
      some (some (fetch a.lblkSz (page a d l) first n i tmp)) := by
  induction n with
  | zero => intro i tmp _; rfl
  | succ n ih =>
    intro i tmp hle
    have hread := devReadById_eq h hm (show first + i < l.length by omega)
    rw [Nat.cast_add] at hread
    unfold readLoop fetch
    exact Option.bind_eq_some_iff.mpr ⟨_, hread, ih _ (by omega)⟩

/-- **The write loop stores pages.** -/
theorem writeLoop_eq (tmp : Buf) (first n : ℕ) : ∀ {i : ℕ} {s : St}, Mounted a s.dev →
    first + i + n ≤ l.length →
    ∃ s', writeLoop a tmp l l.length first n i s = some (true, s') ∧ Wrote a l s s' ∧
      page a s'.dev l = store a.lblkSz tmp first n i (page a s.dev l) := by
  induction n with
  | zero =>
    intro i s hm _
    exact ⟨s, rfl, Wrote.refl hm l, rfl⟩
  | succ n ih =>
    intro i s hm hle
    obtain ⟨t, hop, hw, hpage⟩ := devWriteById_eq h hm (show first + i < l.length by omega)
      (shift tmp (i * a.lblkSz))
    obtain ⟨s', hop', hw', hpage'⟩ := ih (i := i + 1) hw.mounted (by omega)
    rw [Nat.cast_add] at hop
    refine ⟨s', ?_, hw.trans hw', ?_⟩
    · unfold writeLoop
      refine Option.bind_eq_some_iff.mpr ⟨_, hop, ?_⟩
      dsimp only
      rw [if_neg (by omega)]
      exact hop'
    · rw [hpage', hpage]
      rfl

omit h in
/-- The read loop of a directory fetches what the lookups find. -/
theorem readDirLoop_of_pages {d : Dev} {p : ℕ → Buf}
    (hread : ∀ k < l.length, devReadById a d k l l.length = some (some (p k))) (n : ℕ) :
    ∀ {i : ℕ} {tmp : Buf}, i + n ≤ l.length →
      readDirLoop a d l n i tmp = some (fetch a.lblkSz p 0 n i tmp) := by
  induction n with
  | zero => intro i tmp _; rfl
  | succ n ih =>
    intro i tmp hle
    unfold readDirLoop fetch
    rw [Nat.zero_add]
    exact Option.bind_eq_some_iff.mpr ⟨_, hread i (by omega), ih (by omega)⟩

/-- **The read loop of a directory fetches all its pages.** -/
theorem readDirLoop_eq {d : Dev} (hm : Mounted a d) (n : ℕ) {i : ℕ} {tmp : Buf}
    (hle : i + n ≤ l.length) :
    readDirLoop a d l n i tmp = some (fetch a.lblkSz (page a d l) 0 n i tmp) :=
  readDirLoop_of_pages (fun _ hk => devReadById_eq h hm hk) n hle

/-- **The write loop of a directory stores pages.** -/
theorem writeDirLoop_eq (tmp : Buf) (n : ℕ) : ∀ {i : ℕ} {res : ℤ} {s : St}, Mounted a s.dev →
    i + n ≤ l.length → 0 ≤ res →
    ∃ s' r, writeDirLoop a tmp l l.length n i res s = some (r, s') ∧ 0 ≤ r ∧ Wrote a l s s' ∧
      page a s'.dev l = store a.lblkSz tmp 0 n i (page a s.dev l) := by
  induction n with
  | zero =>
    intro i res s hm _ hres
    exact ⟨s, res, rfl, hres, Wrote.refl hm l, rfl⟩
  | succ n ih =>
    intro i res s hm hle _
    obtain ⟨t, hop, hw, hpage⟩ := devWriteById_eq h hm (show i < l.length by omega)
      (shift tmp (i * a.lblkSz))
    obtain ⟨s', r, hop', hr, hw', hpage'⟩ := ih (i := i + 1) hw.mounted (by omega)
      (le_refl (0 : ℤ))
    refine ⟨s', r, Option.bind_eq_some_iff.mpr ⟨_, hop, hop'⟩, hr, hw.trans hw', ?_⟩
    unfold store
    rw [hpage', hpage, Nat.zero_add]

end Block

end Fcfs.Vol
