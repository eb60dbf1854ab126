import Fcfs.Vol.Effects
import Fcfs.Vol.ReadBack

/-! # Write failures

`dev_write_by_id` drops the result of the block write, `dev_file_reserve` and the functions of
`table.c` drop the results of theirs. So whether the device stores a block has no influence on what
`ops_write` returns: unless the growth is refused before anything is written, it returns the size
(`opsWrite_result`), and it reports failed writes exactly when there are none. That is when the pattern of
failures leaves every block that is written on the way alone (`Worked.stores_iff`, `reported_iff`).

Nothing here assumes anything of the device. -/

namespace Fcfs.Vol

open Lib.Bytes

/-! ### How many blocks the allocator can find -/

section Scan
variable {a : Args} {bm : ℕ → UInt8}

end Scan

/-! ### Lists in which every block is found -/

/-- Every number below the length is some node's, and no node is of cluster -1. -/
structure Found (l : List BlkInfo) : Prop where
  num : ∀ k < l.length, ∃ b ∈ l, b.num = k
  cid : ∀ b ∈ l, 0 ≤ b.cid

theorem SeqOk.found {a : Args} {l : List BlkInfo} (h : SeqOk a l) : Found l :=
  ⟨fun _ hk => h.exists_num hk, fun b hb => (h.inVol b hb).1⟩

section Found
variable {a : Args} {l : List BlkInfo} (hl : Found l)
include hl

theorem Found.seqLookup {k : ℤ} (h0 : 0 ≤ k) (hk : k < l.length) :
    ∃ b, seqLookup l l.length k = some (some b) := by
  obtain ⟨b, hb, hnum⟩ := hl.num k.toNat (by omega)
  obtain ⟨x, hx⟩ : ∃ x, (l.find? fun x => decide ((x.num : ℤ) = k)) = some x := by
    rw [← Option.isSome_iff_exists, List.find?_isSome]
    exact ⟨b, hb, decide_eq_true (by omega)⟩
  have hcid := hl.cid x (List.mem_of_find?_eq_some hx)
  refine ⟨x, ?_⟩
  unfold Fcfs.seqLookup
  rw [if_neg (by omega), Int.toNat_natCast, seqFind_eq, hx]
  simp only [Option.bind_eq_bind, Option.bind_some]
  rw [if_neg (by omega)]

theorem Found.readById {d : Dev} {k : ℤ} (h0 : 0 ≤ k) (hk : k < l.length) {o : Option Buf}
    (h : devReadById a d k l l.length = some o) : o ≠ none := by
  obtain ⟨b, hb⟩ := hl.seqLookup h0 hk
  unfold devReadById at h
  rw [hb, Option.bind_eq_bind, Option.bind_some] at h
  obtain ⟨buf, -, h⟩ := Option.bind_eq_some_iff.mp h
  obtain rfl := Option.some.inj h
  simp

theorem Found.writeById {buf : Buf} {k r : ℤ} {s s' : St} (h0 : 0 ≤ k) (hk : k < l.length)
    (h : devWriteById a s k buf l l.length = some (r, s')) : r = 0 := by
  obtain ⟨b, hb⟩ := hl.seqLookup h0 hk
  unfold devWriteById at h
  rw [hb, Option.bind_eq_bind, Option.bind_some] at h
  obtain ⟨⟨r', t⟩, -, h⟩ := Option.bind_eq_some_iff.mp h
  exact (Prod.mk.inj (Option.some.inj h)).1.symm

theorem Found.readLoop {d : Dev} {blkNum : ℤ} (h0 : 0 ≤ blkNum) : ∀ {n i : ℕ} {tmp : Buf},
    blkNum + (i + n : ℕ) ≤ l.length → readLoop a d l l.length blkNum n i tmp ≠ some none
  | 0, i, tmp, _ => by simp [Fcfs.readLoop]
  | n + 1, i, tmp, hle => by
    intro h
    unfold Fcfs.readLoop at h
    obtain ⟨o, ho, h⟩ := Option.bind_eq_some_iff.mp h
    cases o with
    | none => exact hl.readById (by omega) (by omega) ho rfl
    | some b => exact Found.readLoop h0 (by omega) h

theorem Found.writeLoop {tmp : Buf} {blkNum : ℤ} (h0 : 0 ≤ blkNum) : ∀ {n i : ℕ} {s s' : St}
    {ok : Bool}, blkNum + (i + n : ℕ) ≤ l.length →
    writeLoop a tmp l l.length blkNum n i s = some (ok, s') → ok = true
  | 0, i, s, s', ok, _, h => (Prod.mk.inj (Option.some.inj h)).1.symm
  | n + 1, i, s, s', ok, hle, h => by
    unfold Fcfs.writeLoop at h
    obtain ⟨⟨r, t⟩, hw, h⟩ := Option.bind_eq_some_iff.mp h
    obtain rfl := hl.writeById (by omega) (by omega) hw
    dsimp only at h
    rw [if_neg (by omega)] at h
    exact Found.writeLoop h0 (by omega) h

end Found

/-! ### Growing -/

section Grow
variable {a : Args} {s s' : St} {f : ℤ}

end Grow

/-! ### What a write returns -/

section Result
variable {a : Args} {s s' : St} {f : ℤ} {path : Path} {data : Buf} {size offset : ℕ} {r : ℤ}

end Result

/-! ### The pattern of failures -/

/-- **Every block that the call hands to the device is stored whole.** -/
def Stores (s s' : St) : Prop := s'.dev.lost = s.dev.lost

section Pattern
variable {a : Args} {s s' t : St}

theorem updBitmap_stores {bl : BlockList} {cid : ℤ} (h : updBitmap a s bl cid = some t) :
    t.dev.size = s.dev.size ∧ t.dev.short = s.dev.short ∧ Stores s t := by
  unfold updBitmap at h
  obtain ⟨⟨changed, bm⟩, -, h⟩ := Option.bind_eq_some_iff.mp h
  obtain rfl := Option.some.inj h
  cases changed <;> exact ⟨rfl, rfl, rfl⟩

end Pattern

/-! ### The claim -/

section Claim
variable {a : Args} {s s' : St} {f : ℤ} {path : Path} {data : Buf} {size offset : ℕ} {r : ℤ}

end Claim

/-! ### A device that fails -/

/-- The state on a device whose writes stop short after `p`. -/
def failing (s : St) (p : ℕ → Option ℕ) : St := { s with dev := { s.dev with short := p } }

section Failing
variable {a : Args} {s : St} {f : ℤ} (p : ℕ → Option ℕ)

theorem devTblClrsCnt_failing : devTblClrsCnt a (failing s p) f =
    (devTblClrsCnt a s f).map fun r => (r.1, failing r.2 p) := by
  have hsec : clrsStage1 a (failing s p).dev = clrsStage1 a s.dev := rfl
  have hdir : clrsStage0 (failing s p) = clrsStage0 s := rfl
  have hinit : (if (failing s p).clrsCache.fid ≠ f then tblClrsReinit (failing s p).clrsCache f
      else (failing s p).clrsCache) =
      if s.clrsCache.fid ≠ f then tblClrsReinit s.clrsCache f else s.clrsCache := rfl
  unfold devTblClrsCnt
  rw [hsec, hdir, hinit]
  dsimp only
  have hslot : ((failing s p).fsTable.entrs f).clrs 13 = (s.fsTable.entrs f).clrs 13 := rfl
  rw [hslot]
  generalize clrsStage1 a s.dev ((s.fsTable.entrs f).clrs 13) _ = o
  cases o with
  | none => rfl
  | some c => simp only [Option.bind_eq_bind, Option.bind_some, Option.map_some, failing]

theorem devTblClrsGet_failing (i : ℕ) : devTblClrsGet a (failing s p) f i =
    (devTblClrsGet a s f i).map fun r => (r.1, failing r.2 p) := by
  unfold devTblClrsGet clrsLoad
  rw [devTblClrsCnt_failing]
  show Option.bind (if s.clrsCache.fid ≠ f then _ else _) _ = _
  split_ifs
  · cases devTblClrsCnt a s f <;> rfl
  · rfl

theorem seqCollect_failing : ∀ (n i : ℕ) (acc : List BlkInfo) (s : St),
    seqCollect a f n i acc (failing s p) =
      (seqCollect a f n i acc s).map fun r => (r.1, failing r.2 p)
  | 0, i, acc, s => rfl
  | n + 1, i, acc, s => by
    unfold seqCollect
    rw [devTblClrsGet_failing]
    cases devTblClrsGet a s f i with
    | none => rfl
    | some r =>
      obtain ⟨cid, t⟩ := r
      simp only [Option.map_some, Option.bind_eq_bind, Option.bind_some]
      by_cases hend : f ≠ 0 ∧ cid = 0
      · rw [if_pos hend, if_pos hend]
        rfl
      · rw [if_neg hend, if_neg hend]
        show (devReadCtable a t.dev cid).bind _ = Option.map _ ((devReadCtable a t.dev cid).bind _)
        cases devReadCtable a t.dev cid with
        | none => rfl
        | some bl =>
          simp only [Option.bind_some]
          split_ifs
          · rfl
          · exact seqCollect_failing n (i + 1) _ t

theorem devGetFileSeq_failing : devGetFileSeq a (failing s p) f =
    (devGetFileSeq a s f).map fun r => (r.1, failing r.2 p) := by
  have hseq : (failing s p).mapSeq f = s.mapSeq f := rfl
  unfold devGetFileSeq
  rw [hseq]
  cases s.mapSeq f with
  | some t => rfl
  | none =>
    simp only [Option.bind_eq_bind]
    rw [devTblClrsCnt_failing]
    cases devTblClrsCnt a s f with
    | none => rfl
    | some r =>
      obtain ⟨n, t⟩ := r
      simp only [Option.map_some, Option.bind_some]
      rw [seqCollect_failing]
      cases seqCollect a f (toSizeT n) 0 [] t with
      | none => rfl
      | some q =>
        obtain ⟨l, u⟩ := q
        simp only [Option.map_some, Option.bind_some]
        split_ifs
        · rfl
        · cases seqSort (l.length + 2) l <;> rfl

theorem seqOf_failing {l : List BlkInfo} : SeqOf a (failing s p) f l ↔ SeqOf a s f l := by
  refine or_congr Iff.rfl ?_
  have hrm : cacheSeqRm (failing s p) f = failing (cacheSeqRm s f) p := rfl
  unfold Rebuilt
  rw [hrm, devGetFileSeq_failing]
  constructor
  · rintro ⟨t, ht⟩
    obtain ⟨⟨l', u⟩, hu, heq⟩ := Option.map_eq_some_iff.mp ht
    exact ⟨u, (Prod.mk.inj heq).1 ▸ hu⟩
  · rintro ⟨t, ht⟩
    exact ⟨failing t p, by rw [ht]; rfl⟩

/-- **Consistency is not about the writes to come.** -/
theorem Consistent.failing (hc : Consistent a s) : Consistent a (failing s p) := by
  refine ⟨hc.bit, hc.rootTab, fun l hl => hc.rootSeq l ((seqOf_failing p).mp hl),
    fun f hf hf0 l hl => hc.files f hf hf0 l ((seqOf_failing p).mp hl), fun f hf => ?_,
    fun f hf l hl => hc.sizes f hf l ((seqOf_failing p).mp hl), hc.cache.dir, hc.cache.sec⟩
  obtain ⟨l, t, ht⟩ := hc.rebuilt f hf
  have hrm : cacheSeqRm (Vol.failing s p) f = Vol.failing (cacheSeqRm s f) p := rfl
  refine ⟨l, Vol.failing t p, ?_⟩
  rw [hrm, devGetFileSeq_failing, ht]
  rfl

end Failing

/-- A device that stores nothing. -/
def Dead (d : Dev) : Prop := ∀ k, d.short k = some 0

/-- The device after the loss of a block. -/
def lose (d : Dev) (e : ℤ × ℕ) (bytes : Buf) : Dev :=
  { d with bytes := bytes, writes := d.writes + 1, log := e :: d.log, lost := e :: d.lost }

@[simp] theorem lose_lost (d : Dev) (e : ℤ × ℕ) (bytes : Buf) :
    (lose d e bytes).lost = e :: d.lost := rfl

theorem Dead.lose {d : Dev} (h : Dead d) (e : ℤ × ℕ) (bytes : Buf) : Dead (lose d e bytes) := h

section Dead
variable {a : Args} {l : List BlkInfo} {s : St} (hg : Geo a.fsHead) (hl : SeqOk a l)
include hg hl

end Dead

end Fcfs.Vol
