import Fcfs.Vol.Front
import Fcfs.Vol.TreeRun

/-! # Where the driver writes

Seek positions are computed in `int` from whatever cluster number a list holds, and a number that is too large
or negative would bring a block into the metadata. On a volume in order this does not happen: every block a
call writes lies in the volume (`VolOk.inside_call`). A write goes to a block of the file's list, to the table
of a cluster taken for it, or to its address cluster, and the numbers of all these come from tables and lists
that are in order. -/

namespace Fcfs.Vol

open Lib.Bytes

/-- **The blocks written from `s` to `t` lie in the volume.** -/
def Inside (a : Args) (s t : St) : Prop := ∃ new, devLog t = new ++ devLog s ∧ ∀ e ∈ new, InVolume a e

/-- The blocks of a list lie in the volume. -/
def ListIn (a : Args) (l : List BlkInfo) : Prop := ∀ b ∈ l, InVol a b.cid b.bid

section Inside
variable {a : Args} {s t u : St} {f : ℤ}

theorem Inside.of_log (h : devLog t = devLog s) : Inside a s t := ⟨[], h, fun _ he => absurd he List.not_mem_nil⟩

theorem Inside.refl (a : Args) (s : St) : Inside a s s := Inside.of_log rfl

theorem Inside.of_sameVol (h : SameVol s t) : Inside a s t := Inside.of_log (congrArg Dev.log h.dev)

theorem Inside.trans (h : Inside a s t) (h' : Inside a t u) : Inside a s u := by
  obtain ⟨new, hlog, hnew⟩ := h
  obtain ⟨new', hlog', hnew'⟩ := h'
  refine ⟨new' ++ new, by rw [hlog', hlog, List.append_assoc], fun e he => ?_⟩
  rcases List.mem_append.mp he with he | he
  · exact hnew' e he
  · exact hnew e he

theorem SeqOk.listIn {l : List BlkInfo} (h : SeqOk a l) : ListIn a l := by
  intro b hb
  obtain ⟨h0, hc, -, h7⟩ := h.inVol b hb
  exact ⟨h0, hc, Nat.lt_succ_of_le h7⟩

theorem inside_devWriteBlock {cid r : ℤ} {bid len : ℕ} {b : Buf} {crypt : Bool} (hin : InVol a cid bid)
    (h : devWriteBlock a s cid bid b len crypt = some (r, t)) : Inside a s t :=
  ⟨[(cid, bid)], devWriteBlock_log h, fun e he => by rw [List.mem_singleton.mp he]; exact hin⟩

theorem inside_writeCtable {bl : BlockList} {cid r : ℤ} (h0 : 0 ≤ cid) (hc : cid < a.cluCnt)
    (h : devWriteCtable a s cid bl = some (r, t)) (hu : updBitmap a t bl cid = some u) : Inside a s u :=
  (inside_devWriteBlock ⟨h0, hc, by decide⟩ h).trans (Inside.of_log (updBitmap_dev hu))

/-! ### Blocks of a list -/

theorem seqFind_mem {l : List BlkInfo} {n : ℕ} {id : ℤ} {b : BlkInfo} (h : seqFind l n id = some (some b)) :
    b ∈ l := by
  induction l generalizing n with
  | nil => cases n <;> cases h
  | cons x l ih =>
    cases n with
    | zero => cases h
    | succ n =>
      unfold seqFind at h
      split_ifs at h
      · obtain rfl := Option.some.inj (Option.some.inj h)
        exact List.mem_cons_self
      · exact List.mem_cons_of_mem _ (ih h)

theorem seqLookup_mem {l : List BlkInfo} {n id : ℤ} {b : BlkInfo} (h : seqLookup l n id = some (some b)) :
    b ∈ l := by
  unfold seqLookup at h
  rcases ite_eq_iff.mp h with ⟨-, h⟩ | ⟨-, h⟩
  · cases h
  obtain ⟨o, hfind, h⟩ := Option.bind_eq_some_iff.mp h
  cases o with
  | none => cases h
  | some x =>
    dsimp only at h
    split_ifs at h
    · cases h
    · obtain rfl := Option.some.inj (Option.some.inj h)
      exact seqFind_mem hfind

theorem inside_devWriteById {l : List BlkInfo} (hl : ListIn a l) {id r seqSz : ℤ} {buf : Buf}
    (h : devWriteById a s id buf l seqSz = some (r, t)) : Inside a s t := by
  unfold devWriteById at h
  obtain ⟨o, hlook, h⟩ := Option.bind_eq_some_iff.mp h
  cases o with
  | none =>
    obtain ⟨-, rfl⟩ := Prod.mk.inj (Option.some.inj h)
    exact Inside.refl a s
  | some b =>
    obtain ⟨⟨r', v⟩, hw, h⟩ := Option.bind_eq_some_iff.mp h
    obtain ⟨-, rfl⟩ := Prod.mk.inj (Option.some.inj h)
    exact inside_devWriteBlock (hl b (seqLookup_mem hlook)) hw

theorem inside_writeLoop {l : List BlkInfo} (hl : ListIn a l) {tmp : Buf} {seqSz blkNum : ℤ} :
    ∀ {n i : ℕ} {b : Bool} {s : St}, writeLoop a tmp l seqSz blkNum n i s = some (b, t) → Inside a s t
  | 0, i, b, s, h => by
    unfold writeLoop at h
    obtain ⟨-, rfl⟩ := Prod.mk.inj (Option.some.inj h)
    exact Inside.refl a s
  | n + 1, i, b, s, h => by
    unfold writeLoop at h
    obtain ⟨⟨r, v⟩, hw, h⟩ := Option.bind_eq_some_iff.mp h
    refine (inside_devWriteById hl hw).trans ?_
    dsimp only at h
    split_ifs at h
    · obtain ⟨-, rfl⟩ := Prod.mk.inj (Option.some.inj h)
      exact Inside.refl a v
    · exact inside_writeLoop hl h

theorem inside_writeDirLoop {l : List BlkInfo} (hl : ListIn a l) {buf : Buf} {seqSz : ℤ} :
    ∀ {n i : ℕ} {res r : ℤ} {s : St}, writeDirLoop a buf l seqSz n i res s = some (r, t) → Inside a s t
  | 0, i, res, r, s, h => by
    unfold writeDirLoop at h
    obtain ⟨-, rfl⟩ := Prod.mk.inj (Option.some.inj h)
    exact Inside.refl a s
  | n + 1, i, res, r, s, h => by
    unfold writeDirLoop at h
    obtain ⟨⟨r', v⟩, hw, h⟩ := Option.bind_eq_some_iff.mp h
    exact (inside_devWriteById hl hw).trans (inside_writeDirLoop hl h)

theorem inside_devSetFileSize {l : List BlkInfo} (hl : ListIn a l) (hseq : s.mapSeq f = some l) {r size : ℤ}
    (h : devSetFileSize a s f size = some (r, t)) : Inside a s t := by
  unfold devSetFileSize at h
  rw [devGetFileSeq_cached hseq, Option.bind_eq_bind, Option.bind_some] at h
  obtain ⟨o, -, h⟩ := Option.bind_eq_some_iff.mp h
  cases o with
  | none =>
    obtain ⟨-, rfl⟩ := Prod.mk.inj (Option.some.inj h)
    exact Inside.refl a s
  | some buf => exact inside_devWriteById hl h

/-! ### Growing -/

theorem inside_reserveLoop (n : ℕ) : ∀ {inf inf' : List BlkInfo} {lastNum : ℤ} {s : St}, ListIn a inf →
    reserveLoop a f inf n lastNum s = some (inf', t) → Inside a s t := by
  induction n with
  | zero =>
    intro inf inf' lastNum s _ h
    unfold reserveLoop at h
    obtain ⟨-, rfl⟩ := Prod.mk.inj (Option.some.inj h)
    exact Inside.refl a s
  | succ n ih =>
    intro inf inf' lastNum s hin h
    cases inf with
    | nil => simp [reserveLoop] at h
    | cons b inf =>
      unfold reserveLoop at h
      obtain ⟨bl, -, h⟩ := Option.bind_eq_some_iff.mp h
      dsimp only at h
      split_ifs at h
      obtain ⟨⟨r, v⟩, hw, h⟩ := Option.bind_eq_some_iff.mp h
      obtain ⟨w, hu, h⟩ := Option.bind_eq_some_iff.mp h
      obtain ⟨⟨inf'', x⟩, hrec, h⟩ := Option.bind_eq_some_iff.mp h
      obtain ⟨-, rfl⟩ := Prod.mk.inj (Option.some.inj h)
      obtain ⟨h0, hc, -⟩ := hin b List.mem_cons_self
      exact (inside_writeCtable h0 hc hw hu).trans (ih (fun x hx => hin x (List.mem_cons_of_mem _ hx)) hrec)

theorem SecOwned.range (h : SecOwned a s f) (hne : secAddr s.fsTable f ≠ 0) :
    0 ≤ secAddr s.fsTable f ∧ secAddr s.fsTable f < a.cluCnt := by
  by_contra hout
  have hfid := h.resolve_left hne 0
  unfold tab ctable at hfid
  rw [if_neg hout] at hfid
  exact absurd hfid (by decide)

theorem Ext.inside (h : Ext a f s t) (hown : SecOwned a s f) : Inside a s t := by
  obtain ⟨new, hlog, hnew⟩ := h.log
  refine ⟨new, hlog, fun e he => ?_⟩
  obtain ⟨hc, hne, hb⟩ := hnew e he
  have hrange : 0 ≤ secAddr t.fsTable f ∧ secAddr t.fsTable f < a.cluCnt := by
    by_cases hz : secAddr s.fsTable f = 0
    · obtain ⟨⟨h1, hlt⟩, -⟩ := h.claim hz (by rw [← hc]; exact hne)
      exact ⟨by omega, hlt⟩
    · rw [h.keep hz]
      exact hown.range hz
  exact ⟨by rw [hc]; exact hrange.1, by rw [hc]; exact hrange.2, by unfold bloksPerCluster; omega⟩

theorem listIn_nextBlks (a : Args) (d : Dev) (count : ℕ) : ListIn a (nextBlks a d count) := by
  intro b hb
  obtain ⟨h1, hc, -, h7, -⟩ := nextBlks_in hb
  exact ⟨by omega, hc, Nat.lt_succ_of_le h7⟩

/-- Marking free blocks leaves an owned address cluster owned. -/
theorem Reserved.secOwned {bs : List BlkInfo} {n : ℤ} (h : Reserved a f bs n s t) (hown : SecOwned a s f)
    (hfree : ∀ b ∈ bs, ∀ i : Fin 7, b.bid = i.val + 1 → (tab a s.dev b.cid i).fid = 0) : SecOwned a t f := by
  unfold SecOwned
  rw [h.secAddr]
  refine hown.imp_right fun hall i => ?_
  rw [h.old _ i fun hin => ?_]
  · exact hall i
  · obtain ⟨b, hb, heq⟩ := List.mem_map.mp hin
    obtain ⟨hcid, hbid⟩ := Prod.mk.inj heq
    have hfid := hall i
    rw [← hcid, hfree b hb i hbid] at hfid
    exact absurd hfid (by decide)

/-- Reserving the next free blocks writes the tables of their clusters, and the address cluster. -/
theorem inside_devFileReserve {l inf : List BlkInfo} {cl : List ℤ} {count : ℕ} {r : ℤ} (hsm : a.cluCnt ≤ 65535)
    (hf0 : 0 < f) (hm : Mounted a s.dev) (hag : Agree a s.dev s.fsBitmap) (hg : Growable a s f l cl)
    (hown : SecOwned a s f) (hspace : Space a s.dev cl count)
    (h : devFileReserve a s f (nextBlks a s.dev count) count ((l.length : ℤ) - 1) = some (r, inf, t)) :
    Inside a s t := by
  have hlen := length_nextBlks hspace.blks
  have hblks := hspace.blks
  have hfl := freeBlks_length_le a (tab a s.dev)
  have hbound := hg.stored.bound
  have hclu := cluCnt_lt hm
  have hin := listIn_nextBlks a s.dev count
  have hfree : ∀ b ∈ nextBlks a s.dev count, ∀ i : Fin 7, b.bid = i.val + 1 → (tab a s.dev b.cid i).fid = 0 := by
    intro b hb i hi
    obtain ⟨-, -, -, -, j, hj, hfid⟩ := nextBlks_in hb
    obtain rfl : i = j := Fin.ext (by omega)
    exact hfid
  unfold devFileReserve at h
  obtain ⟨c, hcnt, hld⟩ := devTblClrsCnt_eq hm (by omega) hg.stored hg.cache
  rw [if_neg (by omega), hcnt, Option.bind_eq_bind, Option.bind_some] at h
  dsimp only at h
  rw [if_neg (by omega)] at h
  obtain ⟨⟨inf, u⟩, hloop, h⟩ := Option.bind_eq_some_iff.mp h
  obtain ⟨w, hnote, h⟩ := Option.bind_eq_some_iff.mp h
  dsimp only at hloop hnote
  obtain ⟨-, hrest⟩ := Prod.mk.inj (Option.some.inj h)
  obtain ⟨-, rfl⟩ := Prod.mk.inj hrest
  -- the blocks are marked
  obtain ⟨u', hloop', hres⟩ := reserveLoop_eq (f := f) (nextBlks a s.dev count) (n := (l.length : ℤ) - 1)
    (s := { s with clrsCache := c }) hm hag (fun b hb => by
      obtain ⟨h1, hc, hb1, hb7, -⟩ := nextBlks_in hb
      exact ⟨h1, hc, hb1, hb7⟩) (nodup_nextBlks _ _ _)
  have hmark := inside_reserveLoop count hin hloop
  rw [hlen] at hloop'
  obtain ⟨rfl, rfl⟩ := Prod.mk.inj (Option.some.inj (hloop.symm.trans hloop'))
  have hmem := hres.mem
  have htable : u.fsTable = s.fsTable := by rw [hmem]
  have hcache : u.clrsCache = c := by rw [hmem]
  -- their clusters are noted
  obtain ⟨w', hnote', hext, -⟩ := devFileMemClrs_eq hsm
    (renum (nextBlks a s.dev count) ((l.length : ℤ) - 1)) (by
      intro b hb
      have hb' := List.mem_map_of_mem (f := BlkInfo.cid) hb
      rw [map_cid_renum] at hb'
      obtain ⟨b', hb', heq⟩ := List.mem_map.mp hb'
      obtain ⟨h1, hc, -⟩ := nextBlks_in hb'
      rw [← heq]
      exact ⟨h1, hc⟩) (n := (cl.length : ℤ)) (f := f)
    hres.mounted hres.agree (by rw [htable]; exact hg.stored.toAnchored) (by rw [hcache]; exact hld)
    hg.ne (Or.inl rfl) (by rw [length_renum, hlen]; omega) (by
      intro hle hgt
      rw [map_cid_renum] at hgt
      obtain ⟨c', h1, hc', hfr, hnot⟩ := hspace.addr hle hgt
      refine ⟨c', h1, hc', fun i => ?_⟩
      rw [hres.old c' i fun hin => ?_]
      · exact hfr i
      · obtain ⟨b, hb, heq⟩ := List.mem_map.mp hin
        exact hnot b hb (Prod.mk.inj heq).1)
  rw [length_renum, hlen] at hnote'
  obtain rfl := Option.some.inj (hnote.symm.trans hnote')
  have hsec := hext.inside (hres.secOwned hown hfree)
  exact (Inside.of_log (s := s) (t := { s with clrsCache := c }) rfl).trans
    (hmark.trans (hsec.trans (Inside.of_log rfl)))

/-- **Growing a file writes inside of the volume.** -/
theorem inside_devExtdBlkList {l l' : List BlkInfo} {cl : List ℤ} {count : ℕ} {z : ℤ} (hsm : a.cluCnt ≤ 65535)
    (hf0 : 0 < f) (hm : Mounted a s.dev) (hag : Agree a s.dev s.fsBitmap) (hg : Growable a s f l cl)
    (hown : SecOwned a s f) (hcount : 1 ≤ count) (hspace : Space a s.dev cl count)
    (h : devExtdBlkList a s l l.length count f = some (z, l', t)) : Inside a s t := by
  unfold devExtdBlkList at h
  rw [devFreeBlocks_eq hm hag hcount hspace.blks, Option.bind_eq_bind, Option.bind_some] at h
  obtain ⟨⟨r, blks, v⟩, hresv, h⟩ := Option.bind_eq_some_iff.mp h
  refine (inside_devFileReserve hsm hf0 hm hag hg hown hspace hresv).trans ?_
  dsimp only at h
  split_ifs at h <;> obtain ⟨-, hrest⟩ := Prod.mk.inj (Option.some.inj h) <;>
    obtain ⟨-, rfl⟩ := Prod.mk.inj hrest <;> exact Inside.of_log rfl

/-- **`dev_get_file_seq` and growing**, for a file in order that can have the blocks. -/
theorem FileOk.inside_growTo {cl : List ℤ} {need z : ℤ} {l l' : List BlkInfo} (hm : Mounted a s.dev)
    (hag : Agree a s.dev s.fsBitmap) (hsm : a.cluCnt ≤ 65535) (hok : FileOk a s f cl) (hf0 : 0 ≤ f)
    (hft : f < tableLen) (hfits : Fits a s f need) (hseq : devGetFileSeq a s f = some (l, u))
    (h : growTo a u l need f = some (z, l', t)) : Inside a s t := by
  obtain ⟨l₀, c, hop, hl, hc⟩ := hok.lookup hm
  obtain ⟨rfl, rfl⟩ := Prod.mk.inj (Option.some.inj (hseq.symm.trans hop))
  have hfit := hfits cl hok
  rw [← hl.length_eq] at hfit
  refine (Inside.of_log (t := looked s f c l) rfl).trans ?_
  unfold growTo at h
  split_ifs at h with hlt
  · obtain ⟨hf, hspace, -⟩ := hfit hlt
    exact inside_devExtdBlkList (s := looked s f c l) hsm (by omega) hm hag
      (hok.growable hag (by omega) hft hl hc) hok.owned (by omega) hspace h
  · obtain ⟨-, hrest⟩ := Prod.mk.inj (Option.some.inj h)
    obtain ⟨-, rfl⟩ := Prod.mk.inj hrest
    exact Inside.refl a _

theorem Held.listIn {l : List BlkInfo} (h : Held a f l s u) : ListIn a l := by
  obtain ⟨cl, -, hok, -⟩ := h.ok
  exact (hok.seqOk.perm h.list).listIn

/-- **`dev_write_dir` writes inside of the volume.** -/
theorem FileOk.inside_devWriteDir {cl : List ℤ} (hm : Mounted a s.dev) (hag : Agree a s.dev s.fsBitmap)
    (hsm : a.cluCnt ≤ 65535) (hok : FileOk a s f cl) (hnd : cl.Nodup) (hf0 : 0 ≤ f) (hft : f < tableLen)
    {ent : List DirEntry} {r : ℤ} (hfits : Fits a s f (dirNeed a ent.length))
    (h : devWriteDir a s f ent = some (r, t)) : Inside a s t := by
  obtain ⟨l, v, l', w, hop, hgrow, -, hheld, -⟩ := hok.hold hm hag hsm hnd hf0 hft hfits
  have hg := hok.inside_growTo hm hag hsm hf0 hft hfits hop hgrow
  unfold devWriteDir at h
  dsimp only at h
  rw [hop, Option.bind_eq_bind, Option.bind_some] at h
  obtain ⟨⟨z, inf, x⟩, hgrow', h⟩ := Option.bind_eq_some_iff.mp h
  obtain ⟨-, hrest⟩ := Prod.mk.inj (Option.some.inj (hgrow'.symm.trans hgrow))
  obtain ⟨rfl, rfl⟩ := Prod.mk.inj hrest
  exact hg.trans (inside_writeDirLoop hheld.listIn h)

/-- **`ops_write` writes inside of the volume.** -/
theorem FileOk.inside_opsWrite {cl : List ℤ} {s₀ : St} (hm : Mounted a s.dev) (hag : Agree a s.dev s.fsBitmap)
    (hsm : a.cluCnt ≤ 65535) (hok : FileOk a s f cl) (hnd : cl.Nodup) (hf0 : 0 ≤ f) (hft : f < tableLen)
    {path : Path} {fh r : ℤ} {buf : Buf} {size offset : ℕ} (hfid : writeFid a s₀ path fh = some (f, s))
    (hfits : Fits a s f (writeNeed a size offset)) (h : opsWrite a s₀ path buf size offset fh = some (r, t)) :
    Inside a s t := by
  obtain ⟨l, v, l', w, hop, hgrow, -, hheld, -⟩ := hok.hold hm hag hsm hnd hf0 hft hfits
  refine (hok.inside_growTo hm hag hsm hf0 hft hfits hop hgrow).trans ?_
  have hin := hheld.listIn
  unfold writeNeed at hgrow
  unfold opsWrite at h
  rw [hfid, Option.bind_eq_bind, Option.bind_some] at h
  dsimp only at h
  rw [hop, Option.bind_eq_bind, Option.bind_some] at h
  dsimp only at h
  rw [hgrow, Option.bind_eq_bind, Option.bind_some] at h
  dsimp only at h
  split_ifs at h
  · obtain ⟨-, rfl⟩ := Prod.mk.inj (Option.some.inj h)
    exact Inside.refl a w
  · obtain ⟨o, -, h⟩ := Option.bind_eq_some_iff.mp h
    cases o with
    | none =>
      obtain ⟨-, rfl⟩ := Prod.mk.inj (Option.some.inj h)
      exact Inside.refl a w
    | some tmp =>
      obtain ⟨⟨b, x⟩, hloop, h⟩ := Option.bind_eq_some_iff.mp h
      refine (inside_writeLoop hin hloop).trans ?_
      dsimp only at h
      split_ifs at h
      · -- the list is still cached when the size is set
        obtain ⟨⟨sz, y⟩, hsz, h⟩ := Option.bind_eq_some_iff.mp h
        obtain ⟨⟨r', y'⟩, hset, h⟩ := Option.bind_eq_some_iff.mp h
        obtain ⟨-, rfl⟩ := Prod.mk.inj (Option.some.inj h)
        have hx : x.mapSeq f = some l' := by rw [writeLoop_frame hloop]; exact hheld.seq
        have hy := devFileSize_frame hx hsz
        subst hy
        exact inside_devSetFileSize hin hx hset
      · obtain ⟨-, rfl⟩ := Prod.mk.inj (Option.some.inj h)
        exact Inside.refl a x

/-! ### Making a file -/

/-- The block of a new file lies in the first cluster with a free one. -/
theorem inside_devFileAlloc {q : ℤ × ℕ} {rest : List (ℤ × ℕ)} {r : ℤ} (hm : Mounted a s.dev)
    (hag : Agree a s.dev s.fsBitmap) (hq : freeBlks a (tab a s.dev) = q :: rest)
    (h : devFileAlloc a s f = some (r, t)) : Inside a s t := by
  obtain ⟨h1, hc, -⟩ : 1 ≤ q.1 ∧ q.1 < a.cluCnt ∧ _ := freeBlk_in (hq ▸ List.mem_cons_self)
  obtain ⟨hcid, -⟩ := devFreeCluster_eq hm hag hq
  unfold devFileAlloc at h
  dsimp only at h
  rw [hcid] at h
  rcases ite_eq_iff.mp h with ⟨-, h⟩ | ⟨-, h⟩
  · obtain ⟨-, rfl⟩ := Prod.mk.inj (Option.some.inj h)
    exact Inside.of_log rfl
  · obtain ⟨bl, -, h⟩ := Option.bind_eq_some_iff.mp h
    split at h
    case h_1 =>
      obtain ⟨-, rfl⟩ := Prod.mk.inj (Option.some.inj h)
      exact Inside.of_log rfl
    case h_2 b bs _ =>
      obtain ⟨⟨r', u⟩, hw, h⟩ := Option.bind_eq_some_iff.mp h
      obtain ⟨v, hu, h⟩ := Option.bind_eq_some_iff.mp h
      obtain ⟨-, rfl⟩ := Prod.mk.inj (Option.some.inj h)
      obtain ⟨new, hlog, hnew⟩ := inside_writeCtable (by omega) hc hw hu
      exact ⟨new, hlog, hnew⟩

theorem Newborn.inside_devInitFile {c r : ℤ} {b : ℕ} (h : Newborn a f c b s) (hm : Mounted a s.dev) (hf : f ≠ 0)
    (hop : devInitFile a s f = some (r, t)) : Inside a s t := by
  obtain ⟨h1, hc⟩ := h.pos hf
  obtain ⟨c', hget, -⟩ := h.get hm hf
  unfold devInitFile at hop
  rw [hget, Option.bind_eq_bind, Option.bind_some] at hop
  obtain ⟨bl, hread, hop⟩ := Option.bind_eq_some_iff.mp hop
  obtain rfl := Option.some.inj (hread.symm.trans (hm.devReadCtable_eq (by omega) hc))
  rw [devGetBlocks_ctable, h.ownBids hf] at hop
  have hb : b ≤ 7 := by
    obtain ⟨i, rfl, -⟩ := mem_ownBids.mp (h.ownBids hf ▸ List.mem_singleton_self b)
    omega
  have hin : InVol a c b := ⟨by omega, hc, Nat.lt_succ_of_le hb⟩
  obtain ⟨new, hlog, hnew⟩ := inside_devWriteBlock hin hop
  exact ⟨new, hlog, hnew⟩

/-- **The steps of `dev_create_file`**: the directory is read, a block taken, and the directory written. -/
structure CreateSteps (a : Args) (f p : ℤ) (q : ℤ × ℕ) (r : ℤ) (s u v t : St) : Prop where
  looked : Looked a s u
  first : ∃ rest, freeBlks a (tab a u.dev) = q :: rest
  alloc : devFileAlloc a u f = some (0, v)
  alloced : Alloced a f q u v
  but : VolBut a {f} v
  write : ∃ ent cl, ent.length = (dirOf a s.dev p).length + 1 ∧ cl.Nodup ∧ FileOk a v p cl ∧
    Fits a v p (dirNeed a ent.length) ∧ devWriteDir a v p ent = some (r, t)

theorem VolOk.createSteps (hv : VolOk a s) (hsm : a.cluCnt ≤ 65535) {p r : ℤ}
    (hp : p = 0 ∨ Live s.fsTable p) (hf0 : 0 < f) (hft : f < tableLen) (hdead : ¬ Live s.fsTable f)
    {q : ℤ × ℕ} {rest : List (ℤ × ℕ)} (hq : freeBlks a (tab a s.dev) = q :: rest)
    (hfirst : s.clrsCache.fid = f → clrsAt a s.clrsCache 0 = q.1) (hroom : RoomIn a s f p q) {now : UInt64}
    {name : List UInt8} {mode : UInt32} (h : devCreateFile a s now p f name mode = some (r, t)) :
    ∃ u v, CreateSteps a f p q r s u v t := by
  have hL : 1024 ≤ a.lblkSz := hv.mounted.geo.le_lblkSz
  have hqin : q ∈ freeBlks a (tab a s.dev) := by rw [hq]; exact List.mem_cons_self
  have hpf : p ≠ f := by
    rintro rfl
    exact hp.elim (fun hz => by omega) hdead
  have hname := devCreateFile_name hf0 h
  unfold devCreateFile at h
  rw [if_neg (by omega)] at h
  obtain ⟨⟨dirs, u⟩, hread, h⟩ := Option.bind_eq_some_iff.mp h
  obtain ⟨⟨r', v⟩, halloc, h⟩ := Option.bind_eq_some_iff.mp h
  dsimp only at halloc h
  rw [if_neg (by omega)] at h
  -- the directory is read
  obtain ⟨r₀, u', hread', hr, hlook, -⟩ := devReadDir_eq hv.sound hp
  obtain ⟨rfl, rfl⟩ := Prod.mk.inj (Option.some.inj (hread.symm.trans hread'))
  have hvu := hlook.volOk hv
  have hdev := hlook.dev
  have hfirst' : u.clrsCache.fid = f → clrsAt a u.clrsCache 0 = q.1 := by
    intro hfid
    rcases hlook.clrs f hf0 hft hdead with heq | hne
    · rw [heq] at hfid ⊢
      exact hfirst hfid
    · exact absurd hfid hne
  rw [← hdev] at hq hqin
  -- the block is taken
  obtain ⟨v', halloc', hal⟩ := devFileAlloc_eq hvu.mounted hvu.agree (f := f) hq
  obtain ⟨rfl, rfl⟩ := Prod.mk.inj (Option.some.inj (halloc.symm.trans halloc'))
  have hon := hal.onFile_self hqin
  obtain ⟨clf, hfree⟩ : ∃ cl, FreeOk a u f cl := hvu.free f hf0 hft (by rw [hlook.table]; exact hdead)
  have hnb : Newborn a f q.1 q.2 v := hal.newborn hL hsm (by omega) hqin hfree.none hfirst'
  have hvv : VolBut a {f} v := (hvu.but {f}).step rfl hon (by omega) hft (Or.inl hnb.sec)
  have hpv : p = 0 ∨ Live v.fsTable p := by
    rw [live_congr (hon.others p hpf), hlook.table]
    exact hp
  obtain ⟨clp, hndp, hokp⟩ := hvv.files p hpf hpv
  -- and the directory written
  have hlen : (dirs.getD [] ++ [newEntry now f name mode]).length = (dirOf a s.dev p).length + 1 := by
    rw [List.length_append, hr, List.length_singleton]
  have hfits : Fits a v p (dirNeed a (dirs.getD [] ++ [newEntry now f name mode]).length) := by
    rw [hlen, ← hdev]
    exact hroom.of_looked hv hlook hp hf0 hft hpf (by rw [← hdev]; exact hqin) v hal
  exact ⟨u, v, hlook, ⟨rest, hq⟩, halloc, hal, hvv, _, clp, hlen, hndp, hokp, hfits, h⟩

/-- **`dev_create_file` writes inside of the volume.** -/
theorem CreateSteps.inside {p r : ℤ} {q : ℤ × ℕ} {v : St} (h : CreateSteps a f p q r s u v t) (hv : VolOk a s)
    (hsm : a.cluCnt ≤ 65535) (hp : p = 0 ∨ Live s.fsTable p) : Inside a s t := by
  obtain ⟨rest, hq⟩ := h.first
  obtain ⟨ent, cl, -, hnd, hok, hfits, hw⟩ := h.write
  obtain ⟨hp0, hpt⟩ := fid_range hp
  have hvu := h.looked.volOk hv
  have halloced := inside_devFileAlloc hvu.mounted hvu.agree hq h.alloc
  have hwrite := hok.inside_devWriteDir h.but.mounted h.but.agree hsm hnd hp0 hpt hfits hw
  exact (Inside.of_log (congrArg Dev.log h.looked.dev)).trans (halloced.trans hwrite)

theorem VolOk.madeSteps {path : Path} {p r₁ : ℤ} (hv : VolOk a s) (hn : Numbered a) (hok : MakeOk a s path)
    (hfirst : s.clrsCache.fid = devFreeFid a s.fsTable → clrsAt a s.clrsCache 0 = (firstFree a s).1)
    (hpar : fcfsGetPfid a s path = some (p, t)) {now : UInt64} {name : List UInt8} {mode : UInt32}
    (hc : devCreateFile a t now p (devFreeFid a s.fsTable) name mode = some (r₁, u)) :
    (p = 0 ∨ Live t.fsTable p) ∧
      (∃ x y, CreateSteps a (devFreeFid a s.fsTable) p (firstFree a s) r₁ t x y u) ∧ Mounted a u.dev ∧
      Agree a u.dev u.fsBitmap ∧ Newborn a (devFreeFid a s.fsTable) (firstFree a s).1 (firstFree a s).2 u := by
  obtain ⟨hft, hdead⟩ := devFreeFid_free hn hok.fid
  obtain ⟨rest, hrest⟩ := firstFree_cons hok.blk
  obtain ⟨hp, hroom⟩ := hok.dir p t hpar
  have hlook := hv.getPfid hpar
  have hvt := hlook.volOk hv
  have hq : freeBlks a (tab a t.dev) = firstFree a s :: rest := by
    rw [hlook.dev]
    exact hrest
  have hpf : p ≠ devFreeFid a s.fsTable := by
    have hpos := hok.fid
    rintro rfl
    exact hp.elim (fun hz => by omega) hdead
  have hname := devCreateFile_name hok.fid hc
  have hfirst' : t.clrsCache.fid = devFreeFid a s.fsTable → clrsAt a t.clrsCache 0 = (firstFree a s).1 := by
    intro hfid
    rcases hlook.clrs _ hok.fid hft hdead with heq | hne
    · rw [heq] at hfid ⊢
      exact hfirst hfid
    · exact absurd hfid hne
  have hroom' := hroom.of_looked hv hlook hp hok.fid hft hpf (by rw [hrest]; exact List.mem_cons_self)
  have hpt : p = 0 ∨ Live t.fsTable p := by rw [hlook.table]; exact hp
  have hdeadt : ¬ Live t.fsTable (devFreeFid a s.fsTable) := by rw [hlook.table]; exact hdead
  have hsteps := hvt.createSteps hn.clus hpt hok.fid hft hdeadt hq hfirst' hroom' hc
  obtain ⟨r', u', hc', hmade⟩ := hvt.createFile hn.clus hpt hok.fid hft hdeadt hq hfirst' hroom' now hname mode
  obtain ⟨-, rfl⟩ := Prod.mk.inj (Option.some.inj (hc.symm.trans hc'))
  exact ⟨hpt, hsteps, hmade.but.mounted, hmade.but.agree, hmade.newborn⟩

/-- **Making a file writes inside of the volume.** -/
theorem VolOk.inside_made {path : Path} {p r₁ r₂ : ℤ} (hv : VolOk a s) (hn : Numbered a) (hok : MakeOk a s path)
    (hfirst : s.clrsCache.fid = devFreeFid a s.fsTable → clrsAt a s.clrsCache 0 = (firstFree a s).1)
    (hpar : fcfsGetPfid a s path = some (p, t)) {now : UInt64} {name : List UInt8} {mode : UInt32} {v : St}
    (hc : devCreateFile a t now p (devFreeFid a s.fsTable) name mode = some (r₁, u))
    (hi : devInitFile a u (devFreeFid a s.fsTable) = some (r₂, v)) : Inside a s v := by
  have hpos := hok.fid
  have hlook := hv.getPfid hpar
  obtain ⟨hpt, ⟨x, y, hsteps⟩, hm, -, hnew⟩ := hv.madeSteps hn hok hfirst hpar hc
  have hcreate := hsteps.inside (hlook.volOk hv) hn.clus hpt
  have hinit := hnew.inside_devInitFile hm (by omega) hi
  exact (Inside.of_log (congrArg Dev.log hlook.dev)).trans (hcreate.trans hinit)

/-! ### Removing a file -/

/-- **The loop of `dev_rm_file`** writes the tables of the clusters in the list. -/
theorem inside_rmLoop {cl : List ℤ} (hclu : a.cluCnt < 2 ^ 31) (hrange : ∀ c ∈ cl, 1 ≤ c ∧ c < a.cluCnt)
    (hbound : cl.length ≤ s1Len a) : ∀ {n i : ℕ} {s : St}, Loaded s.clrsCache f cl → i + n = cl.length →
    rmLoop a f n i s = some t → Inside a s t
  | 0, i, s, _, _, h => by
    unfold rmLoop at h
    obtain rfl := Option.some.inj h
    exact Inside.refl a s
  | n + 1, i, s, hl, hlen, h => by
    have hi : i < cl.length := by omega
    obtain ⟨h1, hc⟩ := hrange _ (List.getElem_mem hi)
    have hget : devTblClrsGet a s f i = some (cl.getD i 0, s) :=
      devTblClrsGet_eq hl (fun x hx => by have := hrange x hx; omega) hi (by omega)
    rw [List.getD_eq_getElem _ _ hi] at hget
    unfold rmLoop at h
    rw [hget, Option.bind_eq_bind, Option.bind_some] at h
    dsimp only at h
    rw [if_neg (by omega)] at h
    obtain ⟨bl, -, h⟩ := Option.bind_eq_some_iff.mp h
    rcases ite_eq_iff.mp h with ⟨-, h⟩ | ⟨-, h⟩
    · exact inside_rmLoop hclu hrange hbound hl (by omega) h
    · obtain ⟨⟨r, u⟩, hw, h⟩ := Option.bind_eq_some_iff.mp h
      obtain ⟨v, hu, h⟩ := Option.bind_eq_some_iff.mp h
      have hlv : Loaded v.clrsCache f cl := by
        rw [updBitmap_frame hu, devWriteBlock_frame hw]
        exact hl
      exact (inside_writeCtable (by omega) hc hw hu).trans (inside_rmLoop hclu hrange hbound hlv (by omega) h)

/-- Taking an entry out of a directory writes the directory. -/
theorem VolOk.inside_devRmFromDir (hv : VolOk a s) (hsm : a.cluCnt ≤ 65535) {p r : ℤ}
    (hp : p = 0 ∨ Live s.fsTable p) (h : devRmFromDir a s p f = some (r, t)) : Inside a s t := by
  obtain ⟨r₀, u, hop, hr, hlook, -⟩ := devReadDir_eq hv.sound hp
  have hvu := hlook.volOk hv
  have hpu : p = 0 ∨ Live u.fsTable p := by
    rw [hlook.table]
    exact hp
  have hdir : dirOf a u.dev p = dirOf a s.dev p := by rw [hlook.dev]
  obtain ⟨hp0, hpt⟩ := fid_range hp
  unfold devRmFromDir at h
  rw [hop, Option.bind_eq_bind, Option.bind_some] at h
  dsimp only at h
  rw [hr] at h
  refine (Inside.of_log (congrArg Dev.log hlook.dev)).trans ?_
  cases hdrop : dropEntry (dirOf a s.dev p) f with
  | none =>
    rw [hdrop] at h
    obtain ⟨-, rfl⟩ := Prod.mk.inj (Option.some.inj h)
    exact Inside.refl a u
  | some ent =>
    rw [hdrop] at h
    obtain ⟨⟨r', v⟩, hw, h⟩ := Option.bind_eq_some_iff.mp h
    obtain ⟨-, rfl⟩ := Prod.mk.inj (Option.some.inj h)
    obtain ⟨cl, hnd, hok⟩ := hvu.files p hpu
    have hle := hok.dirNeed_le hvu.mounted (n := ent.length) (by rw [hdir, dropEntry_length hdrop]; omega)
    exact hok.inside_devWriteDir hvu.mounted hvu.agree hsm hnd hp0 hpt (fits_of_le hle) hw

/-- **`dev_rm_file` writes inside of the volume.** -/
theorem VolOk.inside_devRmFile (hv : VolOk a s) (hsm : a.cluCnt ≤ 65535) (hf : Live s.fsTable f) (hf0 : f ≠ 0)
    {p r : ℤ} (hp : p = 0 ∨ Live s.fsTable p) (hne : p ≠ f) (h : devRmFile a s f p = some (r, t)) :
    Inside a s t := by
  have h0 := hf.nonneg
  have hft := hf.lt
  obtain ⟨cl, -, hok⟩ := hv.files f (Or.inr hf)
  have hst := hok.stored hf0
  obtain ⟨c, u, hcnt, hrm, hon, hfree, -, hl, hmem⟩ := (hok.covers hf0).freed hv.mounted hv.agree (by omega) hft
  have hzero : (unlinked (s.fsTable.entrs f)).lnkCnt = 0 := by
    unfold unlinked
    rw [hv.lnk f hf hf0]
    rfl
  have hent : u.fsTable.entrs f = unlinked (s.fsTable.entrs f) := by
    rw [hmem]
    exact setEntry_self _ _ _
  have hdead : ¬ Live u.fsTable f := fun hlive => hlive.lnk (by rw [hent]; exact hzero)
  have hvu : VolOk a u := hv.step hon h0 hft (fun hlive => absurd (hlive.resolve_left hf0) hdead)
    (fun _ _ => ⟨cl, hfree⟩) fun hlive => absurd hlive hdead
  have hpu : p = 0 ∨ Live u.fsTable p := by
    rw [live_congr (hon.others p hne)]
    exact hp
  unfold devRmFile at h
  rw [if_neg hf0, hcnt, Option.bind_eq_bind, Option.bind_some] at h
  dsimp only at h
  rcases ite_eq_iff.mp h with ⟨-, h⟩ | ⟨-, h⟩
  · obtain ⟨-, rfl⟩ := Prod.mk.inj (Option.some.inj h)
    exact Inside.of_log rfl
  · obtain ⟨v, hrm', h⟩ := Option.bind_eq_some_iff.mp h
    obtain ⟨⟨r', w⟩, hdel, h⟩ := Option.bind_eq_some_iff.mp h
    obtain ⟨-, rfl⟩ := Prod.mk.inj (Option.some.inj h)
    rw [toSizeT_natCast (hst.slotted.length_lt hv.mounted)] at hrm'
    obtain rfl := Option.some.inj (hrm'.symm.trans hrm)
    have hloop := inside_rmLoop (s := dropLink s f c) hv.mounted.cluCnt_lt hst.range hst.bound hl (by omega) hrm
    have hdir := hvu.inside_devRmFromDir hsm hpu hdel
    exact (Inside.of_log (t := dropLink s f c) rfl).trans (hloop.trans (hdir.trans (Inside.of_log rfl)))

/-! ### Every call -/

/-- **The call is one the driver can serve**: a file can be made, with nothing else cached of it, a file is there
to be removed, and what is written fits. -/
def Servable (a : Args) (s : St) : Call → Prop
  | .mkdir _ path _ => MakeOk a s path ∧ Forgotten s (devFreeFid a s.fsTable) (firstFree a s)
  | .create _ path _ => MakeOk a s path ∧ Forgotten s (devFreeFid a s.fsTable) (firstFree a s)
  | .unlink path => RemoveOk a s path
  | .rmdir path => RemoveOk a s path
  | .write path _ size offset fh => WriteOk a s path size offset fh
  | _ => True

variable {path : Path} {r : ℤ}

theorem MakeOk.clusterFree (hok : MakeOk a s path) (hv : VolOk a s) : ClusterFree a s := by
  obtain ⟨rest, hrest⟩ := firstFree_cons hok.blk
  obtain ⟨h1, hc, -⟩ := freeBlk_in hok.first_mem
  obtain ⟨hcid, bs, hbs⟩ := devFreeCluster_eq hv.mounted hv.agree hrest
  unfold ClusterFree
  rw [hcid]
  refine ⟨by omega, fun bl hread => ?_⟩
  obtain rfl := Option.some.inj (hread.symm.trans (hv.mounted.devReadCtable_eq (by omega) hc))
  rw [hbs]
  exact List.cons_ne_nil _ _

theorem VolOk.inside_make (hv : VolOk a s) (hn : Numbered a) (hok : MakeOk a s path)
    (hforget : Forgotten s (devFreeFid a s.fsTable) (firstFree a s)) {now : UInt64} {mode : UInt32}
    {out : Option (ℤ × St)} (hout : out = opsCreate a now s path mode ∨ out = opsMkdir a now s path mode)
    (h : out = some (r, t)) : Inside a s t := by
  have hfirst := hforget.first hv.mounted hok.first_mem
  rcases hout with rfl | rfl
  · obtain ⟨⟨p, u⟩, hpar, h⟩ := Option.bind_eq_some_iff.mp h
    obtain ⟨name, -, h⟩ := Option.bind_eq_some_iff.mp h
    obtain ⟨⟨r₁, v⟩, hc, h⟩ := Option.bind_eq_some_iff.mp h
    obtain ⟨⟨r₂, w⟩, hi, h⟩ := Option.bind_eq_some_iff.mp h
    obtain ⟨-, rfl⟩ := Prod.mk.inj (Option.some.inj h)
    rw [(hv.getPfid hpar).table] at hc hi
    exact hv.inside_made hn hok hfirst hpar hc hi
  · obtain ⟨name, -, h⟩ := Option.bind_eq_some_iff.mp h
    obtain ⟨⟨p, u⟩, hpar, h⟩ := Option.bind_eq_some_iff.mp h
    obtain ⟨⟨r₁, v⟩, hc, h⟩ := Option.bind_eq_some_iff.mp h
    obtain ⟨⟨r₂, w⟩, hi, h⟩ := Option.bind_eq_some_iff.mp h
    obtain ⟨-, rfl⟩ := Prod.mk.inj (Option.some.inj h)
    exact hv.inside_made hn hok hfirst hpar hc hi

theorem VolOk.inside_unlink (hv : VolOk a s) (hn : Numbered a) (hok : RemoveOk a s path)
    (h : opsUnlink a s path = some (r, t)) : Inside a s t := by
  obtain ⟨⟨f, u⟩, hfid, h⟩ := Option.bind_eq_some_iff.mp h
  obtain ⟨⟨p, v⟩, hpar, h⟩ := Option.bind_eq_some_iff.mp h
  obtain ⟨⟨r', w⟩, hrm, h⟩ := Option.bind_eq_some_iff.mp h
  obtain ⟨-, rfl⟩ := Prod.mk.inj (Option.some.inj h)
  have hlooku := hv.getFid hfid
  have hlook := hlooku.trans ((hlooku.volOk hv).getPfid hpar)
  refine (Inside.of_log (congrArg Dev.log hlook.dev)).trans ?_
  by_cases hf0 : f = 0
  · unfold devRmFile at hrm
    rw [if_pos hf0] at hrm
    obtain ⟨-, rfl⟩ := Prod.mk.inj (Option.some.inj hrm)
    exact Inside.refl a v
  · obtain ⟨hlive, hp, hne⟩ := (hok f u p v hfid hpar).resolve_left hf0
    rw [← hlook.table] at hlive hp
    exact (hlook.volOk hv).inside_devRmFile hn.clus hlive hf0 hp hne hrm

/-- **Every call the driver can serve writes inside of the volume.** -/
theorem VolOk.inside_call (hv : VolOk a s) (hn : Numbered a) {c : Call} (hc : Servable a s c) {rep : Reply}
    (h : c.run a s = some (rep, t)) : Inside a s t := by
  cases c with
  | mkdir now path mode =>
    obtain ⟨⟨r, u⟩, hop, heq⟩ := Option.map_eq_some_iff.mp h
    obtain ⟨-, rfl⟩ := Prod.mk.inj heq
    exact hv.inside_make hn hc.1 hc.2 (Or.inr rfl) hop
  | create now path mode =>
    obtain ⟨⟨r, u⟩, hop, heq⟩ := Option.map_eq_some_iff.mp h
    obtain ⟨-, rfl⟩ := Prod.mk.inj heq
    exact hv.inside_make hn hc.1 hc.2 (Or.inl rfl) hop
  | unlink path =>
    obtain ⟨⟨r, u⟩, hop, heq⟩ := Option.map_eq_some_iff.mp h
    obtain ⟨-, rfl⟩ := Prod.mk.inj heq
    exact hv.inside_unlink hn hc hop
  | rmdir path =>
    obtain ⟨⟨r, u⟩, hop, heq⟩ := Option.map_eq_some_iff.mp h
    obtain ⟨-, rfl⟩ := Prod.mk.inj heq
    exact hv.inside_unlink hn hc hop
  | write path data size offset fh =>
    obtain ⟨⟨f, u⟩, hfid, h⟩ := Option.bind_eq_some_iff.mp h
    obtain ⟨⟨r, v⟩, hop, h⟩ := Option.bind_eq_some_iff.mp h
    obtain ⟨-, rfl⟩ := Prod.mk.inj (Option.some.inj h)
    have hlook := hv.writeFid hfid
    have hvu := hlook.volOk hv
    obtain ⟨hf, hfits⟩ := hc.file f u hfid
    obtain ⟨h0, hft⟩ := fid_range hf
    rw [← hlook.table] at hf
    obtain ⟨cl, hnd, hok⟩ := hvu.files f hf
    exact (Inside.of_log (congrArg Dev.log hlook.dev)).trans
      (hok.inside_opsWrite hvu.mounted hvu.agree hn.clus hnd h0 hft hfid hfits hop)
  | _ => exact Inside.of_sameVol (sameVol_call (by trivial) h)

theorem VolOk.lastLink (hv : VolOk a s) (hok : RemoveOk a s path) (h : opsUnlink a s path = some (r, t)) :
    LastLink a s path := by
  intro f u hfid hf0
  obtain ⟨⟨g, u'⟩, hfid', h⟩ := Option.bind_eq_some_iff.mp h
  obtain ⟨rfl, rfl⟩ := Prod.mk.inj (Option.some.inj (hfid.symm.trans hfid'))
  obtain ⟨⟨p, v⟩, hpar, -⟩ := Option.bind_eq_some_iff.mp h
  exact hv.lnk f ((hok f u p v hfid hpar).resolve_left hf0).1 hf0

/-- **Every call the driver can serve settles**: no table entry is left that is not written. -/
theorem VolOk.settles (hv : VolOk a s) {c : Call} (hc : Servable a s c) {rep : Reply}
    (h : c.run a s = some (rep, t)) : Settles a s c := by
  cases c with
  | mkdir now path mode => exact hc.1.clusterFree hv
  | create now path mode => exact hc.1.clusterFree hv
  | unlink path =>
    obtain ⟨⟨r, u⟩, hop, -⟩ := Option.map_eq_some_iff.mp h
    exact hv.lastLink hc hop
  | rmdir path =>
    obtain ⟨⟨r, u⟩, hop, -⟩ := Option.map_eq_some_iff.mp h
    exact hv.lastLink hc hop
  | _ => trivial

theorem state_of_code {out : Option (ℤ × St)} {rep : Reply}
    (h : out.map (fun r => (Reply.code r.1, r.2)) = some (rep, t)) : out.map Prod.snd = some t := by
  obtain ⟨x, rfl, hx⟩ := Option.map_eq_some_iff.mp h
  exact congrArg some (congrArg Prod.snd hx)

/-- **Every call the driver can serve keeps the volume in order.** -/
theorem VolOk.call (hv : VolOk a s) (hn : Numbered a) {c : Call} (hc : Servable a s c) {rep : Reply}
    (h : c.run a s = some (rep, t)) : VolOk a t := by
  cases c with
  | mkdir now path mode =>
    exact hv.fsOp hn (.mkdir now path mode) hc.1 hc.2 (state_of_code h)
  | create now path mode =>
    exact hv.fsOp hn (.create now path mode) hc.1 hc.2 (state_of_code h)
  | unlink path => exact hv.fsOp hn (.unlink path) hc trivial (state_of_code h)
  | rmdir path => exact hv.fsOp hn (.rmdir path) hc trivial (state_of_code h)
  | write path data size offset fh =>
    obtain ⟨⟨f, u⟩, -, h⟩ := Option.bind_eq_some_iff.mp h
    obtain ⟨⟨r, v⟩, hop, h⟩ := Option.bind_eq_some_iff.mp h
    obtain ⟨-, rfl⟩ := Prod.mk.inj (Option.some.inj h)
    exact hv.fsOp hn (.write path data size offset fh) hc trivial (Option.map_eq_some_iff.mpr ⟨_, hop, rfl⟩)
  | getattr now path =>
    obtain ⟨⟨r, st, u⟩, hop, h⟩ := Option.map_eq_some_iff.mp h
    obtain ⟨-, rfl⟩ := Prod.mk.inj h
    exact (hv.getattr hop).volOk hv
  | readdir path =>
    obtain ⟨⟨names, u⟩, hop, h⟩ := Option.map_eq_some_iff.mp h
    obtain ⟨-, rfl⟩ := Prod.mk.inj h
    obtain ⟨⟨g, v⟩, hfid, hop⟩ := Option.bind_eq_some_iff.mp hop
    obtain ⟨⟨dirs, w⟩, hread, hop⟩ := Option.bind_eq_some_iff.mp hop
    obtain ⟨-, rfl⟩ := Prod.mk.inj (Option.some.inj hop)
    have hvv := (hv.getFid hfid).volOk hv
    exact (hvv.readDir hread).volOk hvv
  | opn path =>
    obtain ⟨⟨r, fh, u⟩, hop, h⟩ := Option.map_eq_some_iff.mp h
    obtain ⟨-, rfl⟩ := Prod.mk.inj h
    exact (hv.opn hop).volOk hv
  | opendir path =>
    obtain ⟨⟨r, fh, u⟩, hop, h⟩ := Option.map_eq_some_iff.mp h
    obtain ⟨-, rfl⟩ := Prod.mk.inj h
    exact (hv.opn (r := r) hop).volOk hv
  | read buf size offset fh =>
    obtain ⟨⟨r, buf', u⟩, hop, h⟩ := Option.map_eq_some_iff.mp h
    obtain ⟨-, rfl⟩ := Prod.mk.inj h
    exact (hv.read hop).volOk hv
  | releasedir fh =>
    obtain ⟨-, rfl⟩ := Prod.mk.inj (Option.some.inj h)
    exact hv.release fh
  | release fh =>
    obtain ⟨-, rfl⟩ := Prod.mk.inj (Option.some.inj h)
    exact hv.release fh
  | _ =>
    obtain ⟨-, rfl⟩ := Prod.mk.inj (Option.some.inj h)
    exact hv

/-! ### What is in memory stands on the device -/

/-- **A call the driver can serve leaves on the device what is in memory.** -/
theorem Synced.call (hs : Synced a s) (hv : VolOk a s) (hn : Numbered a) {c : Call} (hc : Servable a s c)
    {rep : Reply} (h : c.run a s = some (rep, t)) : Synced a t := by
  obtain ⟨new, hlog, hnew⟩ := hv.inside_call hn hc h
  exact ((orderlyIf_call h).2 (hv.settles hc h)).keeps_synced.inv hlog hnew hs

end Inside

end Fcfs.Vol
