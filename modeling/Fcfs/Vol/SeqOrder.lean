import Fcfs.Vol.ReadBack

/-! # The order of a rebuilt list

`dev_get_file_seq` sorts the nodes it has collected by their numbers, or means to: `cur` stays at the
head of the list, so all that is ever exchanged are the first two nodes (`sortNodes_cons`). The list
comes out in order exactly when the others have been met in order already
(`buildsSeq_iff`). -/

namespace Fcfs.Vol

open Lib.Bytes

/-- Strictly increasing numbers. -/
def Increasing (l : List BlkInfo) : Prop := l.Pairwise fun b b' => b.num < b'.num

instance (l : List BlkInfo) : Decidable (Increasing l) := by unfold Increasing; infer_instance

/-- **All but the first two nodes are in their places**: behind both of these, and in order. -/
def InPlace : List BlkInfo → Prop
  | x :: y :: l => Increasing (x :: l) ∧ Increasing (y :: l)
  | _ => True

instance : ∀ l : List BlkInfo, Decidable (InPlace l)
  | [] => isTrue trivial
  | [_] => isTrue trivial
  | x :: y :: l => inferInstanceAs (Decidable (Increasing (x :: l) ∧ Increasing (y :: l)))

/-! ### What the sort does -/

theorem sortNodes_of_sorted {l : List BlkInfo} (h : HeadSorted l) : sortNodes l = l := by
  have hsort : seqSort (l.length + 2) l = some l := by
    unfold seqSort
    rw [sortPass_of_sorted h]
    exact if_neg Bool.false_ne_true
  exact Option.some.inj ((seqSort_eq l).symm.trans hsort)

/-- **The first two nodes are exchanged**, if they are out of order; nothing else happens. -/
theorem sortNodes_cons (x y : BlkInfo) (l : List BlkInfo) :
    sortNodes (x :: y :: l) = if x.num > y.num then y :: x :: l else x :: y :: l := by
  split_ifs with hgt
  · have hs : HeadSorted (y :: x :: l) := hgt.le
    have hfirst : sortPass ((x :: y :: l).length - 1) false (x :: y :: l) = (true, y :: x :: l) := by
      show sortPass (l.length + 1) false (x :: y :: l) = _
      unfold sortPass
      rw [if_pos hgt, sortPass_of_sorted hs]
    have hsort : seqSort ((x :: y :: l).length + 2) (x :: y :: l) = some (y :: x :: l) := by
      unfold seqSort
      rw [hfirst]
      refine (if_pos rfl).trans ?_
      unfold seqSort
      rw [sortPass_of_sorted hs]
      exact if_neg Bool.false_ne_true
    exact Option.some.inj ((seqSort_eq _).symm.trans hsort)
  · exact sortNodes_of_sorted (Nat.not_lt.mp hgt)

/-- **The sort sorts what is in place but for the first two.** -/
theorem increasing_sortNodes_iff {l : List BlkInfo} (hnd : (l.map BlkInfo.num).Nodup) :
    Increasing (sortNodes l) ↔ InPlace l := by
  match l, hnd with
  | [], _ => exact ⟨fun _ => trivial, fun _ => List.Pairwise.nil⟩
  | [x], _ =>
    rw [sortNodes_of_sorted (l := [x]) trivial]
    exact ⟨fun _ => trivial, fun _ => List.pairwise_singleton _ x⟩
  | x :: y :: l, hnd =>
    have hne : x.num ≠ y.num := by
      intro heq
      rw [List.map_cons, List.map_cons, heq] at hnd
      exact (List.nodup_cons.mp hnd).1 (List.mem_cons_self ..)
    -- of two nodes in order, the second has to be behind the first
    have hcons : ∀ {u v : BlkInfo}, u.num < v.num →
        (Increasing (u :: v :: l) ↔ Increasing (u :: l) ∧ Increasing (v :: l)) := by
      intro u v huv
      unfold Increasing
      rw [List.pairwise_cons, List.pairwise_cons (a := u) (l := l)]
      constructor
      · rintro ⟨hu, hv⟩
        exact ⟨⟨fun b hb => hu b (List.mem_cons_of_mem v hb), (List.pairwise_cons.mp hv).2⟩, hv⟩
      · rintro ⟨⟨hu, -⟩, hv⟩
        refine ⟨fun b hb => ?_, hv⟩
        rcases List.mem_cons.mp hb with rfl | hb
        · exact huv
        · exact hu b hb
    rw [sortNodes_cons]
    split_ifs with hgt
    · rw [hcons hgt]
      exact and_comm
    · exact hcons (by omega)

/-! ### The rebuilt list -/

/-- **The clusters the file table lists**; the root has cluster 0. -/
def ListedIn (a : Args) (s : St) (f : ℤ) (cl : List ℤ) : Prop :=
  if f = 0 then RootEntry s.fsTable ∧ 0 < a.cluCnt ∧ cl = [0] else Stored a s.dev s.fsTable f cl

/-- **The sequence of the blocks is built**: as many nodes as there are blocks, and these, in order. -/
def BuildsSeq (a : Args) (s : St) (f : ℤ) (blks : List BlkInfo) : Prop :=
  ∃ l t, devGetFileSeq a s f = some (l, t) ∧ l.length = blks.length ∧ l.Perm blks ∧ Increasing l

section Build
variable {a : Args} {s : St} {f : ℤ} {cl : List ℤ}

/-- Whatever the order, a list is built, of the blocks in the clusters. -/
theorem devGetFileSeq_listed (hm : Mounted a s.dev) (hl : ListedIn a s f cl)
    (hc : CacheOk s.clrsCache f cl) (hseq : s.mapSeq f = none)
    (hne : ownNodes (tab a s.dev) f cl ≠ []) :
    ∃ t, devGetFileSeq a s f = some (sortNodes (ownNodes (tab a s.dev) f cl), t) := by
  unfold ListedIn at hl
  by_cases hf : f = 0
  · rw [if_pos hf] at hl
    obtain ⟨hroot, hclu, rfl⟩ := hl
    subst hf
    have hown : ownNodes (tab a s.dev) 0 [0] = nodesOf (tab a s.dev 0) 0 0 := List.flatMap_singleton ..
    rw [hown] at hne ⊢
    obtain ⟨c, hop, -⟩ := devGetFileSeq_root hroot hm hclu hc hseq hne
    exact ⟨_, hop⟩
  · rw [if_neg hf] at hl
    obtain ⟨c, -, hop⟩ := devGetFileSeq_rebuild hm hf hl hc hseq
    rw [if_neg hne] at hop
    exact ⟨_, hop⟩

/-- **The rebuilt list is sorted exactly when all nodes but the first two are met in order.** -/
theorem buildsSeq_iff (hm : Mounted a s.dev) (hl : ListedIn a s f cl) (hc : CacheOk s.clrsCache f cl)
    (hseq : s.mapSeq f = none) (hne : ownNodes (tab a s.dev) f cl ≠ [])
    (hnd : ((ownNodes (tab a s.dev) f cl).map BlkInfo.num).Nodup) :
    BuildsSeq a s f (ownNodes (tab a s.dev) f cl) ↔ InPlace (ownNodes (tab a s.dev) f cl) := by
  obtain ⟨t, hop⟩ := devGetFileSeq_listed hm hl hc hseq hne
  have hperm := sortNodes_perm (ownNodes (tab a s.dev) f cl)
  rw [← increasing_sortNodes_iff hnd]
  constructor
  · rintro ⟨l, u, hop', -, -, hinc⟩
    obtain ⟨rfl, -⟩ := Prod.mk.inj (Option.some.inj (hop.symm.trans hop'))
    exact hinc
  · exact fun hinc => ⟨_, t, hop, hperm.length_eq, hperm, hinc⟩

end Build

/-! ### Three blocks -/

/-- Blocks 1, 2 and 3 of cluster 1 belong to file 1, with the numbers given. -/
def threeTab (n : ℕ → UInt32) (c : ℕ) (i : Fin 7) : BlkEnt :=
  if c = 0 then ⟨0, UInt32.ofNat i⟩ else if c = 1 ∧ i.val < 3 then ⟨1, n i⟩ else ⟨0, 0⟩

/-- The file lists cluster 1. -/
def oneEntry (f : ℤ) : TableEntry :=
  if f = 1 then ⟨1, fun i => if i = 0 then 1 else 0⟩ else TableEntry.zero

/-- A volume with one file of three blocks. -/
def sevenThree (n : ℕ → UInt32) : St := sevenSt (threeTab n) (fun _ _ _ => 0) 0 (rootAnd oneEntry)

theorem stored_sevenThree (n : ℕ → UInt32) :
    Stored sevenArgs (sevenThree n).dev (sevenThree n).fsTable 1 [1] := by
  have hslots : ∀ i < 13, (((rootAnd oneEntry 1).clrs i).toNat : ℤ) = [(1 : ℤ)].getD i 0 := by decide
  have hsec : (((rootAnd oneEntry 1).clrs 13).toNat : ℤ) = 0 := by decide
  refine ⟨⟨hslots, by rw [cluCnt_sevenArgs]; decide, ?_, fun _ => hsec, fun h => absurd h (by decide)⟩,
    Nat.le_add_right_of_le (by decide), fun h => absurd h (by decide)⟩
  unfold s1Len
  rw [lblkSz_sevenArgs]
  decide

theorem ownNodes_sevenThree (n : ℕ → UInt32) : ownNodes (tab sevenArgs (sevenThree n).dev) 1 [1] =
    [⟨1, 1, (n 0).toNat⟩, ⟨1, 2, (n 1).toNat⟩, ⟨1, 3, (n 2).toNat⟩] := by
  refine (ownNodes_sevenSt (stored_sevenThree n).range).trans ?_
  unfold sevenNodes ownNodes
  rw [List.flatMap_singleton]
  rfl

theorem listed_sevenThree (n : ℕ → UInt32) : Mounted sevenArgs (sevenThree n).dev ∧
    ListedIn sevenArgs (sevenThree n) 1 [1] ∧ CacheOk (sevenThree n).clrsCache 1 [1] :=
  ⟨mounted_sevenSt _ _ _ _, stored_sevenThree n, CacheOk.of_ne (show (-1 : ℤ) ≠ 1 by decide)⟩

/-- The numbers of the nodes on the sample volume. -/
def threeNums (x y z : UInt32) (i : ℕ) : UInt32 := [x, y, z].getD i 0

/-- Nodes numbered 0, 2, 1 are not sorted. -/
theorem not_buildsSeq_of_listed : ¬ ∀ (a : Args) (s : St) (f : ℤ) (cl : List ℤ), Mounted a s.dev →
    ListedIn a s f cl → CacheOk s.clrsCache f cl → s.mapSeq f = none →
    ownNodes (tab a s.dev) f cl ≠ [] → ((ownNodes (tab a s.dev) f cl).map BlkInfo.num).Nodup →
      BuildsSeq a s f (ownNodes (tab a s.dev) f cl) := by
  intro h
  have hown := ownNodes_sevenThree (threeNums 0 2 1)
  obtain ⟨hm, hl, hc⟩ := listed_sevenThree (threeNums 0 2 1)
  have hne : ownNodes (tab sevenArgs (sevenThree (threeNums 0 2 1)).dev) 1 [1] ≠ [] := by
    rw [hown]
    exact List.cons_ne_nil _ _
  obtain ⟨t, hop⟩ := devGetFileSeq_listed hm hl hc rfl hne
  obtain ⟨l, u, hop', -, -, hinc⟩ := h _ _ _ _ hm hl hc rfl hne (by rw [hown]; decide)
  obtain ⟨rfl, -⟩ := Prod.mk.inj (Option.some.inj (hop.symm.trans hop'))
  rw [hown, sortNodes_cons] at hinc
  exact absurd hinc (by decide)

/-- Nodes numbered 1, 0, 2 are. -/
theorem buildsSeq_three : BuildsSeq sevenArgs (sevenThree (threeNums 1 0 2)) 1
    (ownNodes (tab sevenArgs (sevenThree (threeNums 1 0 2)).dev) 1 [1]) := by
  have hown := ownNodes_sevenThree (threeNums 1 0 2)
  obtain ⟨hm, hl, hc⟩ := listed_sevenThree (threeNums 1 0 2)
  exact (buildsSeq_iff hm hl hc rfl (by rw [hown]; exact List.cons_ne_nil _ _)
    (by rw [hown]; decide)).mpr (by rw [hown]; decide)

end Fcfs.Vol
