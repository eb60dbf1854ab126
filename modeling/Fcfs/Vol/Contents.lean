import Fcfs.Vol.Dirs

/-! # The bytes of a file

What can be read of a file is what stands behind the size in its contents, as far as the size goes
(`fileBytes`). A write that begins no later than these bytes end overwrites them or is appended
(`bytesOf_put`), and the entries of a directory are read off its bytes (`dirOf_eq`). -/

namespace Fcfs.Vol

open Lib.Bytes

/-- The bytes behind a size. -/
def bytesOf (c : Buf) : List UInt8 := (List.range (leNat 4 c)).map fun i => c (4 + i)

/-- **The bytes of a file.** -/
def fileBytes (a : Args) (d : Dev) (f : ℤ) : List UInt8 := bytesOf (content a d (nodesAt a (tab a d) f))

/-- The entries in the bytes of a directory. -/
def entriesIn (l : List UInt8) : List DirEntry :=
  (List.range (l.length / 64)).map fun i => DirEntry.ofBytes fun k => l.getD (64 * i + k) 0

/-- The bytes of a directory of the given entries. -/
def dirBytes (ent : List DirEntry) : List UInt8 := (List.range (ent.length * 64)).map (entriesBytes ent)

/-- `l` with `size` bytes of `data` in place of what stands from `offset` on. -/
def overwrite (l : List UInt8) (data : Buf) (size offset : ℕ) : List UInt8 :=
  l.take offset ++ ((List.range size).map data ++ l.drop (offset + size))

section Bytes
variable {c c' : Buf} {n : ℕ}

@[simp] theorem length_bytesOf (c : Buf) : (bytesOf c).length = leNat 4 c := by simp [bytesOf]

theorem getD_bytesOf {i : ℕ} (hi : i < leNat 4 c) : (bytesOf c).getD i 0 = c (4 + i) := by
  rw [List.getD_eq_getElem _ _ (by rwa [length_bytesOf])]
  simp [bytesOf]

theorem bytesOf_congr (h : ∀ i < n, c' i = c i) (hn : 4 + leNat 4 c ≤ n) : bytesOf c' = bytesOf c := by
  have hsz : leNat 4 c' = leNat 4 c := leNat_congr fun i hi => h i (by omega)
  unfold bytesOf
  rw [hsz]
  refine List.map_congr_left fun i hi => ?_
  have hi' := List.mem_range.mp hi
  exact h _ (by omega)

theorem entriesOf_eq (c : Buf) : entriesOf c = entriesIn (bytesOf c) := by
  unfold entriesOf entriesIn
  rw [length_bytesOf]
  refine List.map_congr_left fun i hi => DirEntry.ofBytes_congr fun j hj => ?_
  have hi' := List.mem_range.mp hi
  unfold sizeofDirEntry at hj
  rw [getD_bytesOf (by omega), shift_apply, Nat.add_assoc]

/-- **Bytes are put into the contents** no later than where they end. -/
theorem bytesOf_put {data : Buf} {size offset : ℕ} (hoff : offset ≤ leNat 4 c)
    (hlt : max (leNat 4 c) (offset + size) < 2 ^ 32)
    (h : ∀ p < 4 + max (leNat 4 c) (offset + size), c' p = memcpy (memcpy c (offset + 4) data size) 0
      (leByte (max (leNat 4 c) (offset + size))) 4 p) :
    bytesOf c' = overwrite (bytesOf c) data size offset := by
  have hsz : leNat 4 c' = max (leNat 4 c) (offset + size) := by
    have hbytes : leNat 4 c' = leNat 4 (leByte (max (leNat 4 c) (offset + size))) :=
      leNat_congr fun i hi => by rw [h i (by omega), memcpy_in (by omega) (by omega), Nat.sub_zero]
    rw [hbytes, leNat_leByte, Nat.mod_eq_of_lt (by omega)]
  unfold overwrite
  refine List.ext_getElem ?_ fun i hi hi' => ?_
  · simp only [List.length_append, List.length_map, List.length_range, List.length_take, List.length_drop,
      length_bytesOf, hsz]
    omega
  · rw [length_bytesOf, hsz] at hi
    have hget : ∀ (c : Buf) (h : i < (bytesOf c).length), (bytesOf c)[i] = c (4 + i) := by simp [bytesOf]
    rw [hget, h (4 + i) (by omega), memcpy_out (by omega)]
    by_cases hbefore : i < offset
    · rw [List.getElem_append_left (by rw [List.length_take, length_bytesOf]; omega), List.getElem_take,
        memcpy_out (by omega)]
      simp [bytesOf]
    · have htake : ((bytesOf c).take offset).length = offset := by
        rw [List.length_take, length_bytesOf]
        omega
      rw [List.getElem_append_right (by omega)]
      simp only [htake]
      by_cases hin : i < offset + size
      · rw [List.getElem_append_left (by simp; omega), memcpy_in (by omega) (by omega)]
        simp only [List.getElem_map, List.getElem_range]
        congr 1
        omega
      · rw [List.getElem_append_right (by simp; omega), memcpy_out (by omega)]
        simp only [List.length_map, List.length_range, List.getElem_drop, bytesOf, List.getElem_map,
          List.getElem_range]
        congr 1
        omega

end Bytes

section File
variable {a : Args} {d : Dev} {f : ℤ}

@[simp] theorem length_fileBytes (a : Args) (d : Dev) (f : ℤ) :
    (fileBytes a d f).length = fileSz a d (nodesAt a (tab a d) f) := length_bytesOf _

theorem OnFile.fileBytes {s s' : St} {g : ℤ} (h : OnFile a f s s') (hf0 : 0 ≤ f) (hf : f < tableLen)
    (hne : g ≠ f) (hg0 : 0 ≤ g) (hg : g < tableLen) (hsec : SecOwned a s f) :
    fileBytes a s'.dev g = fileBytes a s.dev g := by
  unfold Vol.fileBytes
  rw [nodesAt_other h hf0 hf hne hg0 hg, content_other h hf0 hf hne hg0 hg hsec]

/-- **The entries of a directory** are read off its bytes. -/
theorem dirOf_eq (a : Args) (d : Dev) (g : ℤ) : dirOf a d g = entriesIn (fileBytes a d g) := entriesOf_eq _

end File

end Fcfs.Vol
