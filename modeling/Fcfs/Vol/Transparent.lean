import Fcfs.Vol.Recycle

/-! # The block-list cache

`map_seq` holds the block lists of files that have been looked at until they are released.
`SeqTransparent` says that a list found there is the one `dev_get_file_seq` would build without it,
and that the lists of two files have no block in common. Like the agreement of the cluster lists it
holds throughout a run whose creations find the caches clear (`seqTransparent_of_run`), and not in
every run: what is cached under an identifier stays when its file is removed. -/

namespace Fcfs.Vol

open Lib.Bytes Lib.Paged

/-- **The cache of block lists cannot be told from its absence.** -/
structure SeqTransparent (a : Args) (s : St) : Prop where
  same : ∀ f, f = 0 ∨ Live s.fsTable f → ∀ l, s.mapSeq f = some l →
    ∃ l', Rebuilt a s f l' ∧ l.Perm l'
  apart : ∀ f g, f = 0 ∨ Live s.fsTable f → g = 0 ∨ Live s.fsTable g → f ≠ g →
    ∀ l l', SeqOf a s f l → SeqOf a s g l' → ∀ b ∈ l', blkOf b ∉ l.map blkOf

section Transparent
variable {a : Args} {s : St} {f g : ℤ}

/-- **A file in order is rebuilt** to its blocks. -/
theorem VolOk.rebuilt (hv : VolOk a s) (hf : f = 0 ∨ Live s.fsTable f) :
    ∃ l, Rebuilt a s f l ∧ l.Perm (nodesAt a (tab a s.dev) f) := by
  have hvr : VolOk a (cacheSeqRm s f) := hv.release f
  obtain ⟨l, c, -, hop, hl, -⟩ := hvr.sound.lookup hf
  exact ⟨l, ⟨_, hop⟩, hl⟩

/-- Cached or rebuilt, the list is that of the blocks in the tables. -/
theorem VolOk.seqOf (hv : VolOk a s) (hf : f = 0 ∨ Live s.fsTable f) {l : List BlkInfo}
    (h : SeqOf a s f l) : l.Perm (nodesAt a (tab a s.dev) f) := by
  rcases h with hseq | ⟨t, ht⟩
  · obtain ⟨cl, -, hok⟩ := hv.files f hf
    exact hok.cached l hseq
  · obtain ⟨l', ⟨t', ht'⟩, hl'⟩ := hv.rebuilt hf
    obtain ⟨rfl, -⟩ := Prod.mk.inj (Option.some.inj (ht'.symm.trans ht))
    exact hl'

/-- A node of a file's list is in cluster 0 if the file is the root. -/
theorem cid_root {b : BlkInfo} (hb : b ∈ nodesAt a (tab a s.dev) 0) : b.cid = 0 := by
  rw [nodesAt_root] at hb
  exact (mem_nodesOf.mp hb).1

theorem nodesAt_apart (hf : 0 ≤ f) (hft : f < tableLen) (hg : 0 ≤ g) (hgt : g < tableLen) (hne : f ≠ g)
    {b b' : BlkInfo} (hb : b ∈ nodesAt a (tab a s.dev) f) (hb' : b' ∈ nodesAt a (tab a s.dev) g) :
    blkOf b ≠ blkOf b' := by
  intro heq
  obtain ⟨hcid, hbid⟩ := Prod.mk.inj heq
  by_cases hf0 : f = 0
  · rw [hf0] at hb
    have hroot := cid_root hb
    obtain ⟨⟨h1, -⟩, -⟩ := (mem_nodesAt (by omega)).mp hb'
    omega
  · obtain ⟨⟨h1, -⟩, i, hi, hfid, -⟩ := (mem_nodesAt hf0).mp hb
    by_cases hg0 : g = 0
    · rw [hg0] at hb'
      have hroot := cid_root hb'
      omega
    · obtain ⟨-, j, hj, hfid', -⟩ := (mem_nodesAt hg0).mp hb'
      obtain rfl : i = j := Fin.ext (by omega)
      rw [hcid, hfid'] at hfid
      exact hne ((u32_inj hf (hft.trans (by decide)) hg (hgt.trans (by decide))).mp hfid.symm)

/-- **In a volume in order the cache is transparent.** -/
theorem VolOk.seqTransparent (hv : VolOk a s) : SeqTransparent a s := by
  refine ⟨fun f hf l hl => ?_, fun f g hf hg hne l l' hl hl' b hb hin => ?_⟩
  · obtain ⟨l', hreb, hl'⟩ := hv.rebuilt hf
    exact ⟨l', hreb, (hv.seqOf hf (Or.inl hl)).trans hl'.symm⟩
  · obtain ⟨hf0, hft⟩ := fid_range hf
    obtain ⟨hg0, hgt⟩ := fid_range hg
    obtain ⟨b', hb', heq⟩ := List.mem_map.mp hin
    exact nodesAt_apart hf0 hft hg0 hgt hne ((hv.seqOf hf hl).mem_iff.mp hb')
      ((hv.seqOf hg hl').mem_iff.mp hb) heq

/-- **In every run from a formatted volume whose creations find the caches clear** the cache of block
lists is transparent. -/
theorem seqTransparent_of_run {s₀ : St} (hfresh : Formatted a s₀) (hn : Numbered a)
    (hrun : Relation.ReflTransGen (CleanStep a) s₀ s) : SeqTransparent a s :=
  (hfresh.volOk.run hn hrun).seqTransparent

end Transparent

/-- The first file of a formatted volume. -/
theorem seqTransparent_seven : ∃ s, Relation.ReflTransGen (CleanStep sevenArgs) sevenFresh s ∧
    Live s.fsTable 1 ∧ SeqTransparent sevenArgs s := by
  obtain ⟨s, hw, hf, hop, hfirst, -⟩ := formatted_sevenFresh.make numbered_seven (by decide) (by decide)
  have hstep : CleanStep sevenArgs sevenFresh s := ⟨_, hw, hf, hop⟩
  have hrun := Relation.ReflTransGen.single hstep
  exact ⟨s, hrun, hfirst.live, seqTransparent_of_run formatted_sevenFresh numbered_seven hrun⟩

/-- **A new file with the identifier of an old one** has the blocks of the old one in the cache. -/
theorem Recycled.not_seqTransparent {a : Args} {s : St} {need : ℤ} (h : Recycled a need s)
    (hneed : 1 < need) : ¬ SeqTransparent a s := by
  intro htrans
  obtain ⟨l, hl, hnd, hrange, hlen⟩ := h.seq
  obtain ⟨l', ⟨t, ht⟩, hperm⟩ := htrans.same 1 (Or.inr h.live) l hl
  -- what is rebuilt has no block but the new one
  have hall : ∀ p ∈ l.map blkOf, p = (1, 1) := by
    intro p hp
    obtain ⟨b, hb, rfl⟩ := List.mem_map.mp hp
    obtain ⟨h1, hc⟩ := hrange b hb
    obtain ⟨bl, hbl, hmem⟩ := devGetFileSeq_mem (mapSeq_cacheSeqRm s 1) ht (hperm.mem_iff.mp hb)
    obtain rfl := Option.some.inj ((h.mounted.devReadCtable_eq (by omega) hc).symm.trans hbl)
    rw [clusterBlks_eq] at hmem
    have hnode : b ∈ nodesAt a (tab a s.dev) 1 :=
      (mem_nodesAt (by decide)).mpr ⟨⟨h1, hc⟩, (mem_nodesOf.mp hmem).2⟩
    rw [h.newborn.nodes, List.mem_singleton] at hnode
    rw [hnode]
    rfl
  rw [List.eq_replicate_of_mem hall, List.nodup_replicate, List.length_map] at hnd
  omega

/-- On a volume of seven clusters: a file of two blocks is removed, and another one made. -/
theorem not_seqTransparent_of_run : ¬ ∀ (a : Args) (s₀ s : St), Formatted a s₀ → Numbered a →
    Relation.ReflTransGen (WithinStep a) s₀ s → SeqTransparent a s := by
  intro h
  have hneed : writeNeed sevenArgs 1024 0 = 2 := by decide
  have hint : 0 + 4 + 1024 < 2 ^ 31 := by decide
  obtain ⟨s, hrun, hrec⟩ := formatted_sevenFresh.recycled numbered_seven (by decide) (by decide) hint
    (by rw [hneed]; decide) (by rw [hneed]; decide)
  exact hrec.not_seqTransparent (by rw [hneed]; decide)
    (h _ _ s formatted_sevenFresh numbered_seven hrun)

end Fcfs.Vol
