import Fcfs.Lib.Walks
import Fcfs.Vol.VolOk

/-! # Directories of a volume in order

A directory is a file: `dirOf` decodes the contents of its blocks. `dev_read_dir` returns these
entries (`devReadDir_eq`), whatever is cached, and with them the directories of the volume are a tree
to walk in (`dirs`). -/

namespace Fcfs.Vol

open Lib.Bytes Lib.Paged

/-- The records behind the size header. -/
def entriesOf (c : Buf) : List DirEntry :=
  (List.range (leNat 4 c / 64)).map fun i => DirEntry.ofBytes (shift c (4 + 64 * i))

/-- **The entries of a directory**, as they are on the volume. -/
def dirOf (a : Args) (d : Dev) (g : ℤ) : List DirEntry :=
  entriesOf (content a d (nodesAt a (tab a d) g))

theorem entriesOf_congr {c c' : Buf} {n : ℕ} (h : ∀ i < n, c' i = c i) (hn : 4 + leNat 4 c ≤ n) :
    entriesOf c' = entriesOf c := by
  have hsz : leNat 4 c' = leNat 4 c := leNat_congr fun i hi => h i (by omega)
  unfold entriesOf
  rw [hsz]
  refine List.map_congr_left fun i hi => DirEntry.ofBytes_congr fun j hj => ?_
  have hi' := List.mem_range.mp hi
  unfold sizeofDirEntry at hj
  exact h _ (by omega)

section Read
variable {a : Args} {s : St} {g : ℤ}

/-- **`dev_read_dir` of a block list**: the entries in its blocks, and a null pointer instead of none. -/
theorem devReadDir_seq {t : St} {l : List BlkInfo} (hm : Mounted a t.dev) (hop : devGetFileSeq a s g = some (l, t))
    (hseq : SeqOk a l) (hsz : 4 + leNat 4 (content a t.dev l) ≤ l.length * a.lblkSz) :
    devReadDir a s g = some (if leNat 4 (content a t.dev l) = 0 then none
      else some (entriesOf (content a t.dev l)), t) := by
  have hlen := hseq.bytes_lt hm
  obtain ⟨buf, hbuf⟩ : ∃ buf, buf = fetch a.lblkSz (page a t.dev l) 0 l.length 0
      (fun i => if i < a.lblkSz * l.length then 0 else a.junk i) := ⟨_, rfl⟩
  have hcont : ∀ k < l.length * a.lblkSz, buf k = content a t.dev l k := by
    intro k hk
    rw [hbuf, fetch_apply, Nat.zero_add, if_pos (by omega), Nat.zero_mul, Nat.zero_add]
    rfl
  have hsame : leNat 4 buf = leNat 4 (content a t.dev l) :=
    leNat_congr fun i hi => hcont i (by omega)
  have hent : entriesOf buf = entriesOf (content a t.dev l) := entriesOf_congr hcont hsz
  have hloop : readDirLoop a t.dev l l.length 0
      (fun i => if i < a.lblkSz * l.length then 0 else a.junk i) = some buf := by
    rw [hbuf]
    exact readDirLoop_eq hseq hm l.length (by omega)
  have hread : devReadDir a s g = if leNat 4 buf = 0 then some (none, t)
      else if 2 ^ 31 ≤ leNat 4 buf then none else some (some (entriesOf buf), t) := by
    unfold devReadDir
    rw [hop, Option.bind_eq_bind, Option.bind_some]
    refine (congrArg (fun x => x >>= _) hloop).trans ?_
    rw [Option.bind_eq_bind, Option.bind_some]
    simp only [entriesOf, shift_shift]
  rw [hread, hsame, hent]
  split_ifs with h0 h31
  · rfl
  · omega
  · rfl

theorem entriesOf_nil {c : Buf} (h : leNat 4 c = 0) : entriesOf c = [] := by
  unfold entriesOf
  rw [h]
  rfl

/-- **`dev_read_dir` returns the entries**, and the caches change to what agrees. -/
theorem devReadDir_eq (hs : Sound a s) (hg : g = 0 ∨ Live s.fsTable g) :
    ∃ r t, devReadDir a s g = some (r, t) ∧ r.getD [] = dirOf a s.dev g ∧ Looked a s t ∧
      t.mapFid = s.mapFid ∧ (s.mapSeq g ≠ none → t = s) ∧ t.mapSeq g ≠ none := by
  obtain ⟨l, c, cl, hop, hl, -, hok, hlook⟩ := hs.lookup hg
  have hin : (looked s g c l).mapSeq g ≠ none := by
    rw [show (looked s g c l).mapSeq g = some l from Function.update_self _ _ _]
    simp
  have hm : Mounted a (looked s g c l).dev := hs.mounted
  have hsz := hok.size
  rw [← hl.length_eq, ← fileSz_perm hok.seqOk hl] at hsz
  refine ⟨_, _, devReadDir_seq hm hop (hok.seqOk.perm hl) hsz, ?_, hlook, rfl, looked_eq_self hop, hin⟩
  unfold dirOf
  rw [← content_perm hok.seqOk hl]
  show (if leNat 4 (content a s.dev l) = 0 then none else some (entriesOf (content a s.dev l))).getD [] = _
  split_ifs with h0
  · exact (entriesOf_nil h0).symm
  · rfl

theorem Sound.devFileSize (hs : Sound a s) (hg : g = 0 ∨ Live s.fsTable g) :
    ∃ t, devFileSize a s g = some (cint (fileSz a s.dev (nodesAt a (tab a s.dev) g)), t) ∧
      Looked a s t ∧ t.mapFid = s.mapFid := by
  obtain ⟨l, c, cl, hop, hl, -, hok, hlook⟩ := hs.lookup hg
  have hne : l ≠ [] := by
    rintro rfl
    exact hok.ne hl.symm.eq_nil
  have hsz := devFileSize_eq (hok.seqOk.perm hl) hne (by rw [hlook.dev]; exact hs.mounted) hop
  rw [hlook.dev, fileSz_perm hok.seqOk hl] at hsz
  exact ⟨_, hsz, hlook, rfl⟩

end Read

/-! ### The tree -/

/-- The file an entry names. -/
def fidOf (e : DirEntry) : ℤ := e.fid.toNat

/-- The mode marks a directory. -/
def IsDir (e : DirEntry) : Prop := e.mode &&& 0o170000 = 0o40000

instance (e : DirEntry) : Decidable (IsDir e) := by unfold IsDir; infer_instance

/-- The directories on the device. -/
def dirs (a : Args) (d : Dev) : Lib.Walks.Dirs ℤ (List UInt8) DirEntry where
  list := dirOf a d
  name := DirEntry.nameStr
  node := fidOf
  isDir := IsDir

/-- **A consistent directory tree**: the volume is in order, and in every directory below the root
the entries have different names, none of them empty, and name files. -/
structure DirTree (a : Args) (s : St) : Prop where
  sound : Sound a s
  nodup : ∀ ns g, Lib.Walks.Through (dirs a s.dev) 0 ns g →
    ((dirOf a s.dev g).map DirEntry.nameStr).Nodup
  named : ∀ ns g, Lib.Walks.Through (dirs a s.dev) 0 ns g → ∀ e ∈ dirOf a s.dev g, e.nameStr ≠ []
  files : ∀ ns g, Lib.Walks.Through (dirs a s.dev) 0 ns g → ∀ e ∈ dirOf a s.dev g,
    Live s.fsTable (fidOf e)

section Tree
variable {a : Args} {s : St} (ht : DirTree a s) {ns : List (List UInt8)} {g : ℤ}
  (hthrough : Lib.Walks.Through (dirs a s.dev) 0 ns g)
include ht hthrough

theorem DirTree.live : g = 0 ∨ Live s.fsTable g := by
  rcases List.eq_nil_or_concat ns with rfl | ⟨ns', n, rfl⟩
  · cases hthrough
    exact Or.inl rfl
  · rw [List.concat_eq_append] at hthrough
    obtain ⟨k, hk, e, he, -, rfl⟩ := Lib.Walks.walk_snoc.mp hthrough.walk
    exact Or.inr (ht.files _ _ hk e he)

theorem DirTree.find {e : DirEntry} (he : e ∈ dirOf a s.dev g) :
    ((dirOf a s.dev g).find? fun x => x.nameStr == e.nameStr) = some e := by
  obtain ⟨x, hx⟩ := Option.isSome_iff_exists.mp
    (List.find?_isSome (p := fun x => x.nameStr == e.nameStr).mpr ⟨e, he, beq_self_eq_true e.nameStr⟩)
  have hname : x.nameStr = e.nameStr := by
    have hbeq := List.find?_some hx
    exact eq_of_beq hbeq
  rw [hx, List.inj_on_of_nodup_map (ht.nodup _ _ hthrough) (List.mem_of_find?_eq_some hx) he hname]

end Tree

end Fcfs.Vol
