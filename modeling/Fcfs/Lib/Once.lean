import Fcfs.Lib.Walks

/-! # Every node named once

`Once` says of directories that the entries that can be reached from the root name different nodes, none
of them the root, and that these are all there are. Then only one list of names leads to a directory
(`Once.through_inj`). It stays so when a directory gets an entry for a new node (`Once.add`), and when it
loses the entry of a node that is no directory with entries (`Once.drop`). What is in a directory that has
lost its entry is named no more (`Taken.lost`). -/

namespace Fcfs.Lib.Walks

variable {F N E : Type}

/-- A directory that can be reached. -/
def Reach (D : Dirs F N E) (r g : F) : Prop := ∃ ns, Through D r ns g

/-- The nodes that are named in a directory. -/
def Dirs.nodes (D : Dirs F N E) (g : F) : List F := (D.list g).map D.node

/-- **Every node is named once**, of those that are `A`, and no other is. -/
structure Once (D : Dirs F N E) (r : F) (A : F → Prop) : Prop where
  nodup : ∀ g, Reach D r g → (D.nodes g).Nodup
  apart : ∀ g h, Reach D r g → Reach D r h → ∀ f ∈ D.nodes g, f ∈ D.nodes h → g = h
  named : ∀ g, Reach D r g → ∀ f ∈ D.nodes g, f ≠ r ∧ A f
  found : ∀ f, f ≠ r → A f → ∃ g, Reach D r g ∧ f ∈ D.nodes g

variable {D : Dirs F N E} {r f g p : F} {A A' : F → Prop} {L : F → List E} {ns ns' : List N}

theorem Through.reach (h : Through D r ns g) : Reach D r g := ⟨ns, h⟩

theorem Once.node (h : Once D r A) (hg : Reach D r g) : g = r ∨ A g := by
  obtain ⟨ns, hg⟩ := hg
  rcases List.eq_nil_or_concat ns with rfl | ⟨ns', n, rfl⟩
  · cases hg
    exact Or.inl rfl
  · rw [List.concat_eq_append] at hg
    obtain ⟨k, hk, x, hx, -, -, rfl⟩ := through_snoc hg
    exact Or.inr (h.named k hk.reach _ (List.mem_map_of_mem hx)).2

/-- **One list of names leads to a directory.** The induction is on the names, from the last. -/
theorem Once.through_inj (h : Once D r A) (hg : Through D r ns g) (hg' : Through D r ns' g) : ns = ns' := by
  induction ns using List.reverseRecOn generalizing g ns' with
  | nil =>
    cases hg
    rcases List.eq_nil_or_concat ns' with rfl | ⟨ms, n, rfl⟩
    · rfl
    · rw [List.concat_eq_append] at hg'
      obtain ⟨k, hk, x, hx, -, -, hnode⟩ := through_snoc hg'
      exact absurd hnode (h.named k hk.reach _ (List.mem_map_of_mem hx)).1
  | append_singleton ns n ih =>
    obtain ⟨k, hk, x, hx, -, rfl, rfl⟩ := through_snoc hg
    have hmem : D.node x ∈ D.nodes k := List.mem_map_of_mem hx
    rcases List.eq_nil_or_concat ns' with rfl | ⟨ms, m, rfl⟩
    · cases hg'
      exact absurd rfl (h.named k hk.reach _ hmem).1
    · rw [List.concat_eq_append] at hg' ⊢
      obtain ⟨k', hk', x', hx', -, rfl, hnode⟩ := through_snoc hg'
      obtain rfl := h.apart k k' hk.reach hk'.reach _ hmem (hnode ▸ List.mem_map_of_mem hx')
      rw [ih hk hk', List.inj_on_of_nodup_map (h.nodup k hk.reach) hx' hx hnode]

theorem Once.through_of_walk (h : Once D r A) (hw : Walk D r ns g) (hg : Reach D r g) : Through D r ns g := by
  rcases List.eq_nil_or_concat ns with rfl | ⟨ms, n, rfl⟩
  · cases hw
    exact Through.nil r
  · rw [List.concat_eq_append] at hw ⊢
    obtain ⟨k, hk, x, hx, rfl, rfl⟩ := walk_snoc.mp hw
    have hmem : D.node x ∈ D.nodes k := List.mem_map_of_mem hx
    -- what makes it a directory is the same entry
    obtain ⟨ms', hg⟩ := hg
    rcases List.eq_nil_or_concat ms' with rfl | ⟨ms', m, rfl⟩
    · exact absurd (by cases hg; rfl) (h.named k hk.reach _ hmem).1
    · rw [List.concat_eq_append] at hg
      obtain ⟨k', hk', x', hx', hdir, -, hnode⟩ := through_snoc hg
      obtain rfl := h.apart k k' hk.reach hk'.reach _ hmem (hnode ▸ List.mem_map_of_mem hx')
      obtain rfl := List.inj_on_of_nodup_map (h.nodup k hk.reach) hx' hx hnode
      exact hk.extend hx hdir

theorem Once.not_self (h : Once D r A) (hg : Reach D r g) : g ∉ D.nodes g := by
  intro hin
  obtain ⟨x, hx, hnode⟩ := List.mem_map.mp hin
  obtain ⟨ms, hms⟩ := hg
  have hlong : Through D r (ms ++ [D.name x]) g :=
    h.through_of_walk (walk_snoc.mpr ⟨g, hms, x, hx, rfl, hnode⟩) hms.reach
  have hlen := congrArg List.length (h.through_inj hms hlong)
  rw [List.length_append, List.length_singleton] at hlen
  omega

/-! ### The same directories -/

section Same
variable (hsame : ∀ g, Reach D r g → L g = D.list g)
include hsame

theorem through_congr : Through { D with list := L } r ns g ↔ Through D r ns g := by
  constructor
  · intro hg
    induction ns using List.reverseRecOn generalizing g with
    | nil =>
      cases hg
      exact Through.nil r
    | append_singleton ns n ih =>
      obtain ⟨k, hk, x, hx, hdir, rfl, rfl⟩ := through_snoc hg
      have hold := ih hk
      change x ∈ L k at hx
      rw [hsame k hold.reach] at hx
      exact hold.extend hx hdir
  · exact Through.mono fun ms k hk x hx => by rw [hsame k hk.reach]; exact hx

theorem walk_congr : Walk { D with list := L } r ns g ↔ Walk D r ns g := by
  rcases List.eq_nil_or_concat ns with rfl | ⟨ms, n, rfl⟩
  · constructor <;> intro h <;> cases h <;> exact Walk.nil _
  · rw [List.concat_eq_append, walk_snoc, walk_snoc]
    constructor
    · rintro ⟨k, hk, x, hx, hrest⟩
      have hold := (through_congr hsame).mp hk
      change x ∈ L k at hx
      rw [hsame k hold.reach] at hx
      exact ⟨k, hold, x, hx, hrest⟩
    · rintro ⟨k, hk, x, hx, hrest⟩
      refine ⟨k, (through_congr hsame).mpr hk, x, ?_, hrest⟩
      show x ∈ L k
      rw [hsame k hk.reach]
      exact hx

theorem Once.congr (h : Once D r A) (hA : ∀ g, g ≠ r → (A' g ↔ A g)) : Once { D with list := L } r A' := by
  have hreach : ∀ g, Reach { D with list := L } r g → Reach D r g := by
    rintro g ⟨ms, hg⟩
    exact ((through_congr hsame).mp hg).reach
  have hnodes : ∀ g, Reach D r g → Dirs.nodes { D with list := L } g = D.nodes g := fun g hg =>
    congrArg (List.map D.node) (hsame g hg)
  refine ⟨fun g hg => ?_, fun g h' hg hh f hf hf' => ?_, fun g hg f hf => ?_, fun f hf hA' => ?_⟩
  · rw [hnodes g (hreach g hg)]
    exact h.nodup g (hreach g hg)
  · rw [hnodes _ (hreach _ hg)] at hf
    rw [hnodes _ (hreach _ hh)] at hf'
    exact h.apart g h' (hreach g hg) (hreach h' hh) f hf hf'
  · rw [hnodes g (hreach g hg)] at hf
    obtain ⟨hne, hAf⟩ := h.named g (hreach g hg) f hf
    exact ⟨hne, (hA f hne).mpr hAf⟩
  · obtain ⟨g, ⟨ms, hg⟩, hmem⟩ := h.found f hf ((hA f hf).mp hA')
    exact ⟨g, ((through_congr hsame).mpr hg).reach, by rw [hnodes g hg.reach]; exact hmem⟩

end Same

/-! ### One entry more -/

/-- **A directory gets an entry**, for a node without entries. -/
structure Gained (D : Dirs F N E) (L : F → List E) (r p : F) (e : E) : Prop where
  dir : L p = D.list p ++ [e]
  new : L (D.node e) = []
  others : ∀ g, Reach D r g → g ≠ p → L g = D.list g

section Add
variable {e : E} (ha : Gained D L r p e)
include ha

theorem Gained.sub (hg : Reach D r g) {x : E} (hx : x ∈ D.list g) : x ∈ L g := by
  by_cases hgp : g = p
  · subst hgp
    rw [ha.dir]
    exact List.mem_append_left _ hx
  · rwa [ha.others g hg hgp]

theorem Gained.mem (hg : Reach D r g) {x : E} (hx : x ∈ L g) : x ∈ D.list g ∨ g = p ∧ x = e := by
  by_cases hgp : g = p
  · rw [hgp, ha.dir] at hx
    rcases List.mem_append.mp hx with hx | hx
    · exact Or.inl (hgp ▸ hx)
    · exact Or.inr ⟨hgp, List.mem_singleton.mp hx⟩
  · rw [ha.others g hg hgp] at hx
    exact Or.inl hx

theorem Gained.through (hg : Through D r ns g) : Through { D with list := L } r ns g :=
  hg.mono fun _ _ hk _ hx => ha.sub hk.reach hx

theorem Gained.walk (hg : Walk D r ns g) : Walk { D with list := L } r ns g :=
  hg.mono fun _ _ hk _ hx => ha.sub hk.reach hx

/-- The only new directory can be the new node. The induction is on the names, from the last. -/
theorem Gained.through_old (hg : Through { D with list := L } r ns g) : Through D r ns g ∨ g = D.node e := by
  induction ns using List.reverseRecOn generalizing g with
  | nil =>
    cases hg
    exact Or.inl (Through.nil r)
  | append_singleton ns n ih =>
    obtain ⟨k, hk, x, hx, hdir, rfl, rfl⟩ := through_snoc hg
    change x ∈ L k at hx
    rcases ih hk with hold | rfl
    · rcases ha.mem hold.reach hx with hx | ⟨-, rfl⟩
      · exact Or.inl (hold.extend hx hdir)
      · exact Or.inr rfl
    · rw [ha.new] at hx
      cases hx

theorem Gained.walk_old (hg : Walk { D with list := L } r ns g) :
    Walk D r ns g ∨ g = D.node e ∧ ∃ ms, ns = ms ++ [D.name e] ∧ Through D r ms p := by
  rcases List.eq_nil_or_concat ns with rfl | ⟨ms, n, rfl⟩
  · cases hg
    exact Or.inl (Walk.nil r)
  · rw [List.concat_eq_append] at hg ⊢
    obtain ⟨k, hk, x, hx, rfl, rfl⟩ := walk_snoc.mp hg
    change x ∈ L k at hx
    rcases ha.through_old hk with hold | rfl
    · rcases ha.mem hold.reach hx with hx | ⟨rfl, rfl⟩
      · exact Or.inl (hold.snoc hx)
      · exact Or.inr ⟨rfl, ms, rfl, hold⟩
    · rw [ha.new] at hx
      cases hx

theorem Gained.mem_nodes (hg : Reach { D with list := L } r g) (hf : f ∈ Dirs.nodes { D with list := L } g) :
    Reach D r g ∧ f ∈ D.nodes g ∨ Reach D r g ∧ g = p ∧ f = D.node e := by
  obtain ⟨ms, hg⟩ := hg
  obtain ⟨x, hx, rfl⟩ := List.mem_map.mp hf
  change x ∈ L g at hx
  rcases ha.through_old hg with hold | rfl
  · rcases ha.mem hold.reach hx with hx | ⟨hgp, rfl⟩
    · exact Or.inl ⟨hold.reach, List.mem_map_of_mem hx⟩
    · exact Or.inr ⟨hold.reach, hgp, rfl⟩
  · rw [ha.new] at hx
    cases hx

/-- **The new node is named once**, and every other is as before. -/
theorem Once.add (h : Once D r A) (hp : Reach D r p) (hr : D.node e ≠ r) (hnew : ¬ A (D.node e))
    (hA : ∀ g, g ≠ r → (A' g ↔ g = D.node e ∨ A g)) : Once { D with list := L } r A' := by
  have hpe : p ≠ D.node e := fun heq => (h.node hp).elim (fun hpr => hr (heq.symm.trans hpr))
    fun hAp => hnew (heq ▸ hAp)
  have hnone : ∀ g, Reach D r g → D.node e ∉ D.nodes g := fun g hg hin => hnew (h.named g hg _ hin).2
  have hself : D.node e ∈ Dirs.nodes { D with list := L } p :=
    List.mem_map_of_mem (show e ∈ L p by rw [ha.dir]; exact List.mem_append_right _ (List.mem_singleton_self e))
  refine ⟨fun g hg => ?_, fun g k hg hk f hf hf' => ?_, fun g hg f hf => ?_, fun f hf hAf => ?_⟩
  · obtain ⟨ms, hg⟩ := hg
    rcases ha.through_old hg with hold | rfl
    · by_cases hgp : g = p
      · have hnodes : Dirs.nodes { D with list := L } g = D.nodes g ++ [D.node e] := by
          rw [hgp]
          exact (congrArg (List.map D.node) ha.dir).trans List.map_append
        rw [hnodes]
        exact List.nodup_append'.mpr ⟨h.nodup g hold.reach, List.nodup_singleton _,
          List.disjoint_singleton.mpr (hnone g hold.reach)⟩
      · have hnodes : Dirs.nodes { D with list := L } g = D.nodes g :=
          congrArg (List.map D.node) (ha.others g hold.reach hgp)
        rw [hnodes]
        exact h.nodup g hold.reach
    · have hnodes : Dirs.nodes { D with list := L } (D.node e) = [] :=
        congrArg (List.map D.node) ha.new
      rw [hnodes]
      exact List.nodup_nil
  · rcases ha.mem_nodes hg hf with ⟨hg, hf⟩ | ⟨hg, hgp, rfl⟩
    · rcases ha.mem_nodes hk hf' with ⟨hk, hf'⟩ | ⟨-, -, rfl⟩
      · exact h.apart g k hg hk f hf hf'
      · exact absurd hf (hnone g hg)
    · rcases ha.mem_nodes hk hf' with ⟨hk, hf'⟩ | ⟨-, hkp, -⟩
      · exact absurd hf' (hnone k hk)
      · rw [hgp, hkp]
  · rcases ha.mem_nodes hg hf with ⟨hg, hf⟩ | ⟨-, -, rfl⟩
    · obtain ⟨hne, hAf⟩ := h.named g hg f hf
      exact ⟨hne, (hA f hne).mpr (Or.inr hAf)⟩
    · exact ⟨hr, (hA _ hr).mpr (Or.inl rfl)⟩
  · rcases (hA f hf).mp hAf with rfl | hold
    · obtain ⟨ms, hp⟩ := hp
      exact ⟨p, (ha.through hp).reach, hself⟩
    · obtain ⟨g, ⟨ms, hg⟩, hmem⟩ := h.found f hf hold
      obtain ⟨x, hx, rfl⟩ := List.mem_map.mp hmem
      exact ⟨g, (ha.through hg).reach,
        List.mem_map_of_mem (show x ∈ L g from ha.sub hg.reach hx)⟩

end Add

/-! ### One entry less -/

/-- **A directory loses the entry of a node**, of which nothing else is said. -/
structure Taken (D : Dirs F N E) (L : F → List E) (r p f : F) : Prop where
  reach : Reach D r p
  named : f ∈ D.nodes p
  dir : ∀ x, x ∈ L p ↔ x ∈ D.list p ∧ D.node x ≠ f
  nodup : ((L p).map D.node).Nodup
  others : ∀ g, Reach D r g → g ≠ p → g ≠ f → L g = D.list g

section Drop
variable (h : Once D r A) (ht : Taken D L r p f)
include h ht

theorem Taken.mem (hg : Reach D r g) (hgf : g ≠ f) {x : E} : x ∈ L g ↔ x ∈ D.list g ∧ D.node x ≠ f := by
  by_cases hgp : g = p
  · subst hgp
    exact ht.dir x
  · rw [ht.others g hg hgp hgf]
    refine ⟨fun hx => ⟨hx, ?_⟩, And.left⟩
    rintro rfl
    exact hgp (h.apart g p hg ht.reach _ (List.mem_map_of_mem hx) ht.named)

/-- **What is reached afterwards** was reached before, and is not the node. The induction is on the names,
from the last. -/
theorem Taken.through_old (hg : Through { D with list := L } r ns g) : Through D r ns g ∧ g ≠ f := by
  induction ns using List.reverseRecOn generalizing g with
  | nil =>
    cases hg
    exact ⟨Through.nil r, Ne.symm (h.named p ht.reach f ht.named).1⟩
  | append_singleton ns n ih =>
    obtain ⟨k, hk, x, hx, hdir, rfl, rfl⟩ := through_snoc hg
    obtain ⟨hold, hkf⟩ := ih hk
    obtain ⟨hx, hxf⟩ := (ht.mem h hold.reach hkf).mp hx
    exact ⟨hold.extend hx hdir, hxf⟩

theorem Taken.reach_old (hg : Reach { D with list := L } r g) : Reach D r g ∧ g ≠ f := by
  obtain ⟨ms, hg⟩ := hg
  obtain ⟨hold, hgf⟩ := ht.through_old h hg
  exact ⟨hold.reach, hgf⟩

theorem Taken.walk (hg : Walk { D with list := L } r ns g) : Walk D r ns g ∧ g ≠ f := by
  rcases List.eq_nil_or_concat ns with rfl | ⟨ms, n, rfl⟩
  · cases hg
    exact ⟨Walk.nil r, Ne.symm (h.named p ht.reach f ht.named).1⟩
  · rw [List.concat_eq_append] at hg ⊢
    obtain ⟨k, hk, x, hx, hname, rfl⟩ := walk_snoc.mp hg
    obtain ⟨hold, hkf⟩ := ht.through_old h hk
    obtain ⟨hx, hxf⟩ := (ht.mem h hold.reach hkf).mp hx
    exact ⟨walk_snoc.mpr ⟨k, hold, x, hx, hname, rfl⟩, hxf⟩

theorem Taken.mem_nodes (hg : Reach D r g) (hgf : g ≠ f) {x : F} :
    x ∈ Dirs.nodes { D with list := L } g ↔ x ∈ D.nodes g ∧ x ≠ f := by
  constructor
  · intro hx
    obtain ⟨e, he, rfl⟩ := List.mem_map.mp hx
    obtain ⟨he, hef⟩ := (ht.mem h hg hgf).mp he
    exact ⟨List.mem_map_of_mem he, hef⟩
  · rintro ⟨hx, hxf⟩
    obtain ⟨e, he, rfl⟩ := List.mem_map.mp hx
    have hin : e ∈ L g := (ht.mem h hg hgf).mpr ⟨he, hxf⟩
    exact List.mem_map_of_mem hin

/-- **What the node named is named no more**: it was in no other directory. -/
theorem Taken.lost {x : F} (hf : Reach D r f) (hx : x ∈ D.nodes f) (hg : Reach { D with list := L } r g) :
    x ∉ Dirs.nodes { D with list := L } g := by
  intro hin
  obtain ⟨hold, hgf⟩ := ht.reach_old h hg
  exact hgf (h.apart g f hold hf x ((ht.mem_nodes h hold hgf).mp hin).1 hx)

section Leaf
variable (hleaf : Reach D r f → D.list f = [])
include hleaf

/-- The other directories are still reached, if the node has no entries. The induction is on the names,
from the last. -/
theorem Taken.through (hg : Through D r ns g) (hgf : g ≠ f) : Through { D with list := L } r ns g := by
  induction ns using List.reverseRecOn generalizing g with
  | nil =>
    cases hg
    exact Through.nil r
  | append_singleton ns n ih =>
    obtain ⟨k, hk, x, hx, hdir, rfl, rfl⟩ := through_snoc hg
    have hkf : k ≠ f := by
      rintro rfl
      rw [hleaf hk.reach] at hx
      cases hx
    have hx' : x ∈ L k := (ht.mem h hk.reach hkf).mpr ⟨hx, hgf⟩
    exact Through.extend (D := { D with list := L }) (ih hk hkf) hx' hdir

/-- **The node is not named any more**, and every other is as before. -/
theorem Once.drop (hA : ∀ g, g ≠ r → (A' g ↔ g ≠ f ∧ A g)) : Once { D with list := L } r A' := by
  refine ⟨fun g hg => ?_, fun g k hg hk x hx hx' => ?_, fun g hg x hx => ?_, fun x hx hAx => ?_⟩
  · obtain ⟨hg, hgf⟩ := ht.reach_old h hg
    by_cases hgp : g = p
    · rw [hgp]
      exact ht.nodup
    · have hnodes : Dirs.nodes { D with list := L } g = D.nodes g :=
        congrArg (List.map D.node) (ht.others g hg hgp hgf)
      rw [hnodes]
      exact h.nodup g hg
  · obtain ⟨hg, hgf⟩ := ht.reach_old h hg
    obtain ⟨hk, hkf⟩ := ht.reach_old h hk
    exact h.apart g k hg hk x ((ht.mem_nodes h hg hgf).mp hx).1 ((ht.mem_nodes h hk hkf).mp hx').1
  · obtain ⟨hg, hgf⟩ := ht.reach_old h hg
    obtain ⟨hx, hxf⟩ := (ht.mem_nodes h hg hgf).mp hx
    obtain ⟨hne, hAx⟩ := h.named g hg x hx
    exact ⟨hne, (hA x hne).mpr ⟨hxf, hAx⟩⟩
  · obtain ⟨hxf, hAx⟩ := (hA x hx).mp hAx
    obtain ⟨g, ⟨ms, hg⟩, hmem⟩ := h.found x hx hAx
    have hgf : g ≠ f := by
      rintro rfl
      obtain ⟨e, he, -⟩ := List.mem_map.mp hmem
      rw [hleaf hg.reach] at he
      cases he
    exact ⟨g, (ht.through h hleaf hg hgf).reach, (ht.mem_nodes h hg.reach hgf).mpr ⟨hmem, hxf⟩⟩

end Leaf

end Drop

end Fcfs.Lib.Walks
