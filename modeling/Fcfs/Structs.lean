import Fcfs.Lib.Bytes
import Mathlib.Data.Fintype.Basic
import Mathlib.Logic.Function.Basic

/-! # The on-disk structures

`fcfs_structs.h` as the compiler lays it out on a 64-bit machine: the fields of each structure at
their offsets, integers little-endian, padding bytes zero. A structure is a record of fixed-width
words with an encoder `bytes` (what `memcpy` from the structure copies) and a decoder `ofBytes`
(what `memcpy` into it reads); decoding what was encoded gives the record back.

Array members indexed by program integers (`clrs`, the table's `entrs`) are functions, as a C array
is the memory behind its first element; the two arrays whose index is always in range (`entrs` of a
cluster table, `name`) are functions on `Fin`. -/

namespace Fcfs

open Lib.Bytes

/-! ### Constants -/

/-- `FCFS_CLUSTER_PER_FILE`. -/
def clusterPerFile : ℕ := 16

/-- `FCFS_BLOKS_PER_CLUSTER`. -/
def bloksPerCluster : ℕ := 8

/-- `FCFS_TABLE_LEN`. -/
def tableLen : ℕ := 65535

/-- `FCFS_BLOCK_SIZE`. -/
def blockSize : ℕ := 2

/-- `sizeof(fcfs_head_t)`. -/
def sizeofHead : ℕ := 352

/-- `sizeof(fcfs_table_t)`: the hashsum, 65535 entries of 34 bytes, two bytes of padding. -/
def sizeofTable : ℕ := 2228200

/-- `sizeof(fcfs_block_list_t)`. -/
def sizeofBlockList : ℕ := 64

/-- `sizeof(fcfs_file_header_t)`. -/
def sizeofFileHeader : ℕ := 4

/-- `sizeof(fcfs_dir_entry_t)`. -/
def sizeofDirEntry : ℕ := 64

/-! ### The header -/

/-- `fcfs_head_t`. Times are the 64 bits of a `time_t`. -/
structure FcfsHead where
  fsid : UInt32
  label : Fin 255 → UInt8
  ctime : UInt64
  atime : UInt64
  tblCnt : UInt32
  tblLen : UInt16
  bmpLen : UInt32
  cluSz : UInt16
  cluCnt : UInt64
  blkSz : UInt16
  blkCnt : UInt64
  phyBlkSz : UInt16
  phyBlkCnt : UInt64
  dtaBeg : UInt32
  hashsum : UInt64

namespace FcfsHead

/-- `lblk_sz = phy_blk_sz * blk_sz`. -/
def lblkSz (h : FcfsHead) : ℕ := h.phyBlkSz.toNat * h.blkSz.toNat

/-- The words of the header after the label, at their offsets: (offset, width, value). -/
def words (h : FcfsHead) : List (ℕ × ℕ × ℕ) :=
  [(0, 4, h.fsid.toNat), (264, 8, h.ctime.toNat), (272, 8, h.atime.toNat),
    (280, 4, h.tblCnt.toNat), (284, 2, h.tblLen.toNat), (288, 4, h.bmpLen.toNat),
    (292, 2, h.cluSz.toNat), (296, 8, h.cluCnt.toNat), (304, 2, h.blkSz.toNat),
    (312, 8, h.blkCnt.toNat), (320, 2, h.phyBlkSz.toNat), (328, 8, h.phyBlkCnt.toNat),
    (336, 4, h.dtaBeg.toNat), (344, 8, h.hashsum.toNat)]

/-- The bytes of the structure. -/
def bytes (h : FcfsHead) : Buf := fun k =>
  if hk : 4 ≤ k ∧ k < 259 then h.label ⟨k - 4, by omega⟩ else layout h.words k

/-- The structure read from memory. -/
def ofBytes (b : Buf) : FcfsHead where
  fsid := get32 b 0
  label := fun i => b (4 + i)
  ctime := get64 b 264
  atime := get64 b 272
  tblCnt := get32 b 280
  tblLen := get16 b 284
  bmpLen := get32 b 288
  cluSz := get16 b 292
  cluCnt := get64 b 296
  blkSz := get16 b 304
  blkCnt := get64 b 312
  phyBlkSz := get16 b 320
  phyBlkCnt := get64 b 328
  dtaBeg := get32 b 336
  hashsum := get64 b 344

theorem ofBytes_congr {b b' : Buf} (h : ∀ i < sizeofHead, b i = b' i) : ofBytes b = ofBytes b' := by
  unfold sizeofHead at h
  have hl : (fun i : Fin 255 => b (4 + i)) = fun i : Fin 255 => b' (4 + i) := by
    funext i; exact h _ (by omega)
  have h16 : ∀ k, k + 2 ≤ 352 → get16 b k = get16 b' k := fun k hk =>
    get16_congr fun i hi => h _ (by omega)
  have h32 : ∀ k, k + 4 ≤ 352 → get32 b k = get32 b' k := fun k hk =>
    get32_congr fun i hi => h _ (by omega)
  have h64 : ∀ k, k + 8 ≤ 352 → get64 b k = get64 b' k := fun k hk =>
    get64_congr fun i hi => h _ (by omega)
  unfold ofBytes
  simp only [hl, h16, h32, h64, Nat.reduceAdd, Nat.reduceLeDiff]

theorem bytes_word (h : FcfsHead) {w : ℕ × ℕ × ℕ} (hw : w ∈ h.words) {i : ℕ} (hi : i < w.2.1) :
    h.bytes (w.1 + i) = leByte w.2.2 i := by
  have hord : Ordered h.words := by simp [Ordered, words]
  have hlab : ∀ v ∈ h.words, ¬ (4 ≤ v.1 + i ∧ v.1 + i < 259) ∨ v.2.1 ≤ i := by
    simp only [words, List.forall_mem_cons]
    refine ⟨?_, ?_, ?_, ?_, ?_, ?_, ?_, ?_, ?_, ?_, ?_, ?_, ?_, ?_, by simp⟩ <;> omega
  unfold bytes
  rw [dif_neg ((hlab w hw).resolve_right (by omega)), layout_word hord hw hi]

theorem ofBytes_bytes (h : FcfsHead) : ofBytes h.bytes = h := by
  have hw : ∀ w ∈ h.words, ∀ i < w.2.1, h.bytes (w.1 + i) = leByte w.2.2 i := fun w hw i hi =>
    bytes_word h hw hi
  have hl : (fun i : Fin 255 => h.bytes (4 + i)) = h.label := by
    funext i
    have hi : 4 ≤ 4 + i.val ∧ 4 + i.val < 259 := by omega
    simp [bytes, hi]
  simp only [words, List.forall_mem_cons] at hw
  obtain ⟨h1, h2, h3, h4, h5, h6, h7, h8, h9, h10, h11, h12, h13, h14, -⟩ := hw
  unfold ofBytes
  rw [hl, get32_eq h1, get64_eq h2, get64_eq h3, get32_eq h4, get16_eq h5, get32_eq h6,
    get16_eq h7, get64_eq h8, get16_eq h9, get64_eq h10, get16_eq h11, get64_eq h12,
    get32_eq h13, get64_eq h14]

end FcfsHead

/-! ### The file table -/

/-- `fcfs_table_entry_t`; sixteen cluster slots. -/
structure TableEntry where
  lnkCnt : UInt8
  clrs : ℕ → UInt16

/-- `fcfs_table_t`. The entries are the memory from `entrs` on; 65535 of them are the table. -/
structure FcfsTable where
  hashsum : UInt64
  entrs : ℤ → TableEntry

namespace TableEntry

/-- An entry cleared by `memset`. -/
def zero : TableEntry := ⟨0, fun _ => 0⟩

/-- An entry that no file has: no links, and no cluster in its sixteen slots. -/
structure Blank (e : TableEntry) : Prop where
  lnk : e.lnkCnt = 0
  clrs : ∀ i < clusterPerFile, e.clrs i = 0

theorem blank_zero : Blank zero := ⟨rfl, fun _ _ => rfl⟩

/-- Byte `r` of the 34 bytes of an entry. -/
def byte (e : TableEntry) (r : ℕ) : UInt8 :=
  if r = 0 then e.lnkCnt else if r = 1 then 0 else leByte (e.clrs ((r - 2) / 2)).toNat ((r - 2) % 2)

/-- The entry at the head of a buffer. -/
def ofBytes (b : Buf) : TableEntry := ⟨b 0, fun i => get16 b (2 + 2 * i)⟩

theorem clrs_ofBytes_byte (e : TableEntry) (i : ℕ) : (ofBytes e.byte).clrs i = e.clrs i := by
  refine get16_eq fun j hj => ?_
  have h1 : (2 + 2 * i + j - 2) / 2 = i := by omega
  have h2 : (2 + 2 * i + j - 2) % 2 = j := by omega
  unfold byte
  rw [if_neg (by omega), if_neg (by omega), h1, h2]

end TableEntry

namespace FcfsTable

/-- The bytes of the table. -/
def bytes (t : FcfsTable) : Buf := fun k =>
  if k < 8 then leByte t.hashsum.toNat k
  else if (k - 8) / 34 < tableLen then (t.entrs ((k - 8) / 34 : ℕ)).byte ((k - 8) % 34) else 0

/-- The table read from memory. -/
def ofBytes (b : Buf) : FcfsTable where
  hashsum := get64 b 0
  entrs := fun f => TableEntry.ofBytes (shift b (8 + 34 * f.toNat))

/-- Two tables agree: the hashsum and all 65535 entries, each with its link count and its sixteen
slots. -/
structure Same (t t' : FcfsTable) : Prop where
  hash : t'.hashsum = t.hashsum
  lnk : ∀ f : ℤ, 0 ≤ f → f < tableLen → (t'.entrs f).lnkCnt = (t.entrs f).lnkCnt
  clrs : ∀ f : ℤ, 0 ≤ f → f < tableLen → ∀ i < clusterPerFile,
    (t'.entrs f).clrs i = (t.entrs f).clrs i

theorem bytes_entry (t : FcfsTable) {f : ℤ} (h0 : 0 ≤ f) (hf : f < tableLen) {r : ℕ} (hr : r < 34) :
    t.bytes (8 + 34 * f.toNat + r) = (t.entrs f).byte r := by
  have hq : (8 + 34 * f.toNat + r - 8) / 34 = f.toNat := by omega
  have hm : (8 + 34 * f.toNat + r - 8) % 34 = r := by omega
  unfold bytes
  rw [if_neg (by omega), hq, hm, if_pos (by omega), Int.toNat_of_nonneg h0]

/-- The table survives being stored: any memory that begins with its bytes reads as the table. -/
theorem ofBytes_bytes (t : FcfsTable) {b : Buf} (hb : ∀ i < sizeofTable, b i = t.bytes i) :
    t.Same (ofBytes b) := by
  have hent : ∀ f : ℤ, 0 ≤ f → f < tableLen → ∀ r < 34,
      b (8 + 34 * f.toNat + r) = (t.entrs f).byte r := by
    intro f h0 hf r hr
    have hlt : 8 + 34 * f.toNat + r < sizeofTable := by
      unfold tableLen at hf; unfold sizeofTable; omega
    rw [hb _ hlt, bytes_entry t h0 hf hr]
  refine ⟨get64_eq fun i hi => ?_, fun f h0 hf => ?_, fun f h0 hf i hi => ?_⟩
  · have hlt : 0 + i < sizeofTable := by unfold sizeofTable; omega
    rw [hb _ hlt]
    unfold bytes
    rw [if_pos (by omega), Nat.zero_add]
  · have h := hent f h0 hf 0 (by omega)
    simpa [ofBytes, TableEntry.ofBytes, TableEntry.byte] using h
  · rw [← TableEntry.clrs_ofBytes_byte (t.entrs f) i]
    unfold clusterPerFile at hi
    refine get16_congr fun j hj => ?_
    rw [shift_apply, hent f h0 hf _ (by omega)]

end FcfsTable

/-! ### Cluster tables -/

/-- `fcfs_block_list_entry_t`. -/
structure BlkEnt where
  fid : UInt32
  num : UInt32
deriving DecidableEq

/-- `fcfs_block_list_t`: block `i + 1` of a cluster is described by entry `i`. -/
structure BlockList where
  hashsum : UInt64
  entrs : Fin 7 → BlkEnt

namespace BlockList

/-- A table cleared by `memset`. -/
def zero : BlockList := ⟨0, fun _ => ⟨0, 0⟩⟩

/-- `entrs[bid - 1].fid = fid; entrs[bid - 1].num = num`. -/
def set (bl : BlockList) (bid : ℕ) (fid num : UInt32) : BlockList :=
  { bl with entrs := fun i => if i.val + 1 = bid then ⟨fid, num⟩ else bl.entrs i }

@[simp] theorem set_entrs (bl : BlockList) (bid : ℕ) (fid num : UInt32) (i : Fin 7) :
    (bl.set bid fid num).entrs i = if i.val + 1 = bid then ⟨fid, num⟩ else bl.entrs i := rfl

/-- The words of the table: (offset, width, value). -/
def words (bl : BlockList) : List (ℕ × ℕ × ℕ) :=
  (0, 8, bl.hashsum.toNat) :: (List.finRange 7).flatMap fun i =>
    [(8 + 8 * i.val, 4, (bl.entrs i).fid.toNat), (12 + 8 * i.val, 4, (bl.entrs i).num.toNat)]

/-- The bytes of the table. -/
def bytes (bl : BlockList) : Buf := layout bl.words

/-- The table read from memory. -/
def ofBytes (b : Buf) : BlockList where
  hashsum := get64 b 0
  entrs := fun i => ⟨get32 b (8 + 8 * i), get32 b (12 + 8 * i)⟩

theorem ofBytes_congr {b b' : Buf} (h : ∀ i < sizeofBlockList, b i = b' i) :
    ofBytes b = ofBytes b' := by
  unfold sizeofBlockList at h
  have hf : ∀ i : Fin 7, get32 b (8 + 8 * i) = get32 b' (8 + 8 * i) := fun i =>
    get32_congr fun j hj => h _ (by omega)
  have hn : ∀ i : Fin 7, get32 b (12 + 8 * i) = get32 b' (12 + 8 * i) := fun i =>
    get32_congr fun j hj => h _ (by omega)
  unfold ofBytes
  simp only [hf, hn]
  rw [get64_congr fun i hi => h (0 + i) (by omega)]

theorem ofBytes_bytes (bl : BlockList) : ofBytes bl.bytes = bl := by
  have hord : Ordered bl.words := by
    simp [Ordered, words, List.finRange_succ]
  have hw : ∀ w ∈ bl.words, ∀ i < w.2.1, bl.bytes (w.1 + i) = leByte w.2.2 i := fun w hw i hi =>
    layout_word hord hw hi
  have h0 := hw (0, 8, bl.hashsum.toNat) (by simp [words])
  have hf : ∀ i : Fin 7, get32 bl.bytes (8 + 8 * i) = (bl.entrs i).fid := fun i =>
    get32_eq (hw (8 + 8 * i.val, 4, (bl.entrs i).fid.toNat)
      (List.mem_cons_of_mem _ (List.mem_flatMap.mpr ⟨i, List.mem_finRange i, by simp⟩)))
  have hn : ∀ i : Fin 7, get32 bl.bytes (12 + 8 * i) = (bl.entrs i).num := fun i =>
    get32_eq (hw (12 + 8 * i.val, 4, (bl.entrs i).num.toNat)
      (List.mem_cons_of_mem _ (List.mem_flatMap.mpr ⟨i, List.mem_finRange i, by simp⟩)))
  unfold ofBytes
  rw [get64_eq h0]
  simp only [hf, hn]

end BlockList

/-! ### Directory entries -/

/-- `fcfs_dir_entry_t`. -/
@[ext] structure DirEntry where
  fid : UInt16
  mode : UInt32
  ctime : UInt64
  atime : UInt64
  mtime : UInt64
  name : Fin 32 → UInt8

namespace DirEntry

/-- The words of the entry before the name: (offset, width, value). -/
def words (e : DirEntry) : List (ℕ × ℕ × ℕ) :=
  [(0, 2, e.fid.toNat), (4, 4, e.mode.toNat), (8, 8, e.ctime.toNat), (16, 8, e.atime.toNat),
    (24, 8, e.mtime.toNat)]

/-- The bytes of the entry. -/
def bytes (e : DirEntry) : Buf := fun k =>
  if hk : 32 ≤ k ∧ k < 64 then e.name ⟨k - 32, by omega⟩ else layout e.words k

/-- The entry read from memory. -/
def ofBytes (b : Buf) : DirEntry where
  fid := get16 b 0
  mode := get32 b 4
  ctime := get64 b 8
  atime := get64 b 16
  mtime := get64 b 24
  name := fun i => b (32 + i)

theorem ofBytes_congr {b b' : Buf} (h : ∀ i < sizeofDirEntry, b i = b' i) :
    ofBytes b = ofBytes b' := by
  unfold sizeofDirEntry at h
  have hname : (fun i : Fin 32 => b (32 + i)) = fun i : Fin 32 => b' (32 + i) := by
    funext i; exact h _ (by omega)
  unfold ofBytes
  rw [hname, get16_congr fun i hi => h (0 + i) (by omega), get32_congr fun i hi => h (4 + i) (by omega),
    get64_congr fun i hi => h (8 + i) (by omega), get64_congr fun i hi => h (16 + i) (by omega),
    get64_congr fun i hi => h (24 + i) (by omega)]

theorem ofBytes_bytes (e : DirEntry) : ofBytes e.bytes = e := by
  have hord : Ordered e.words := by simp [Ordered, words]
  have hw : ∀ w ∈ e.words, ∀ i < w.2.1, e.bytes (w.1 + i) = leByte w.2.2 i := by
    intro w hw i hi
    have hlt : ∀ v ∈ e.words, v.1 + v.2.1 ≤ 32 := by simp [words]
    have := hlt w hw
    unfold bytes
    rw [dif_neg (by omega), layout_word hord hw hi]
  have hname : (fun i : Fin 32 => e.bytes (32 + i)) = e.name := by
    funext i
    have hi : 32 ≤ 32 + i.val ∧ 32 + i.val < 64 := by omega
    simp [bytes, hi]
  simp only [words, List.forall_mem_cons] at hw
  obtain ⟨h1, h2, h3, h4, h5, -⟩ := hw
  unfold ofBytes
  rw [hname, get16_eq h1, get32_eq h2, get64_eq h3, get64_eq h4, get64_eq h5]

end DirEntry

end Fcfs
