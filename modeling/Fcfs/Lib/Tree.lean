import Fcfs.Lib.Once

/-! # Trees of files

What a file system is for: places, each named by a list of names, at which there is nothing, a
directory or a file. In a `FileTree` the root is a directory, what stands anywhere stands in a directory,
and no two places have the same number. Files are put in and taken out and their contents
change (`insert`, `erase`, `write`), and nothing else stands anywhere afterwards.

Directories whose entries name every node once are such a tree (`Once.tree`). An entry more is a node put
in (`Once.tree_add`), an entry less is a node taken out (`Once.tree_drop`). -/

namespace Fcfs.Lib.Tree

/-- What stands at a place: its number, what is known of it, and what it holds if it is no directory. -/
structure Node (K A C : Type) where
  id : K
  attr : A
  body : Option C

/-- **A tree of files.** -/
structure FileTree (N K A C : Type) where
  find : List N → Option (Node K A C)
  root : ∃ x, find [] = some x ∧ x.body = none
  closed : ∀ ns n, find (ns ++ [n]) ≠ none → ∃ x, find ns = some x ∧ x.body = none
  inj : ∀ ns ms x y, find ns = some x → find ms = some y → x.id = y.id → ns = ms

namespace FileTree

variable {N K A C : Type}

@[ext] theorem ext {t u : FileTree N K A C} (h : ∀ ns, t.find ns = u.find ns) : t = u := by
  obtain ⟨f, _, _, _⟩ := t
  obtain ⟨g, _, _, _⟩ := u
  obtain rfl : f = g := funext h
  rfl

/-- There is a directory. -/
def HasDir (t : FileTree N K A C) (ns : List N) : Prop := ∃ x, t.find ns = some x ∧ x.body = none

/-- The names in a directory. -/
def names (t : FileTree N K A C) (ns : List N) : Set N := {n | t.find (ns ++ [n]) ≠ none}

variable [DecidableEq N]

/-- **Nothing but a root.** -/
def single (x : Node K A C) (hdir : x.body = none) : FileTree N K A C where
  find ns := if ns = [] then some x else none
  root := ⟨x, if_pos rfl, hdir⟩
  closed ns n h := by
    rw [if_neg (by simp)] at h
    exact absurd rfl h
  inj ns ms y z hy hz _ := by
    split_ifs at hy hz with hns hms
    rw [hns, hms]

/-- **A node is put in** a directory, under a new name and with a new number. -/
def insert (t : FileTree N K A C) (ns : List N) (n : N) (x : Node K A C) (hdir : t.HasDir ns)
    (hnew : t.find (ns ++ [n]) = none) (hid : ∀ ms y, t.find ms = some y → y.id ≠ x.id) :
    FileTree N K A C where
  find ms := if ms = ns ++ [n] then some x else t.find ms
  root := by
    rw [if_neg (by simp)]
    exact t.root
  closed ms m h := by
    have hold : ms ≠ ns ++ [n] → t.HasDir ms → ∃ y, (if ms = ns ++ [n] then some x else t.find ms) =
        some y ∧ y.body = none := fun hne hms => by rwa [if_neg hne]
    by_cases heq : ms ++ [m] = ns ++ [n]
    · obtain ⟨rfl, -⟩ := List.append_inj' heq rfl
      exact hold (by simp) hdir
    · rw [if_neg heq] at h
      have hdir' := t.closed ms m h
      refine hold ?_ hdir'
      rintro rfl
      obtain ⟨y, hy, -⟩ := hdir'
      rw [hnew] at hy
      cases hy
  inj ms ks y z hy hz heq := by
    split_ifs at hy hz with h1 h2 h2
    · rw [h1, h2]
    · obtain rfl := Option.some.inj hy
      exact absurd heq.symm (hid ks z hz)
    · obtain rfl := Option.some.inj hz
      exact absurd heq (hid ms y hy)
    · exact t.inj ms ks y z hy hz heq

@[simp] theorem insert_find (t : FileTree N K A C) (ns : List N) (n : N) (x : Node K A C) (hdir hnew hid)
    (ms : List N) : (t.insert ns n x hdir hnew hid).find ms = if ms = ns ++ [n] then some x else t.find ms :=
  rfl

theorem insert_names (t : FileTree N K A C) (ns : List N) (n : N) (x : Node K A C) (hdir hnew hid) :
    (t.insert ns n x hdir hnew hid).names ns = Set.insert n (t.names ns) := by
  ext m
  show (if ns ++ [m] = ns ++ [n] then some x else t.find (ns ++ [m])) ≠ none ↔ m = n ∨ t.find (ns ++ [m]) ≠ none
  by_cases heq : m = n
  · rw [heq, if_pos rfl]
    exact iff_of_true (Option.some_ne_none x) (Or.inl rfl)
  · rw [if_neg (by simpa using heq)]
    exact (or_iff_right heq).symm

/-- **A node is taken out**, under which nothing stands. -/
def erase (t : FileTree N K A C) (ns : List N) (n : N) (hleaf : ∀ m, t.find (ns ++ [n] ++ [m]) = none) :
    FileTree N K A C where
  find ms := if ms = ns ++ [n] then none else t.find ms
  root := by
    rw [if_neg (by simp)]
    exact t.root
  closed ms m h := by
    by_cases heq : ms ++ [m] = ns ++ [n]
    · rw [if_pos heq] at h
      exact absurd rfl h
    · rw [if_neg heq] at h
      rw [if_neg ?_]
      · exact t.closed ms m h
      · rintro rfl
        exact h (hleaf m)
  inj ms ks y z hy hz heq := by
    split_ifs at hy hz
    exact t.inj ms ks y z hy hz heq

@[simp] theorem erase_find (t : FileTree N K A C) (ns : List N) (n : N) (hleaf) (ms : List N) :
    (t.erase ns n hleaf).find ms = if ms = ns ++ [n] then none else t.find ms := rfl

/-- **A file holds something else.** A directory stays as it is. -/
def write (t : FileTree N K A C) (ns : List N) (c : C) : FileTree N K A C where
  find ms := if ms = ns then (t.find ns).map fun x => { x with body := x.body.map fun _ => c } else t.find ms
  root := by
    obtain ⟨x, hx, hdir⟩ := t.root
    split_ifs with h
    · exact ⟨{ x with body := x.body.map fun _ => c }, by rw [← h, hx]; rfl, by rw [hdir]; rfl⟩
    · exact ⟨x, hx, hdir⟩
  closed ms m h := by
    have hold : t.find (ms ++ [m]) ≠ none := by
      split_ifs at h with heq
      · rw [heq]
        exact fun hnone => h (by rw [hnone]; rfl)
      · exact h
    obtain ⟨x, hx, hdir⟩ := t.closed ms m hold
    split_ifs with heq
    · exact ⟨{ x with body := x.body.map fun _ => c }, by rw [← heq, hx]; rfl, by rw [hdir]; rfl⟩
    · exact ⟨x, hx, hdir⟩
  inj ms ks y z hy hz heq := by
    have hold : ∀ {ms y}, (if ms = ns then (t.find ns).map fun x => { x with body := x.body.map fun _ => c }
        else t.find ms) = some y → ∃ y', t.find ms = some y' ∧ y'.id = y.id := by
      intro ms y hy
      split_ifs at hy with h
      · obtain ⟨y', hy', rfl⟩ := Option.map_eq_some_iff.mp hy
        exact ⟨y', h ▸ hy', rfl⟩
      · exact ⟨y, hy, rfl⟩
    obtain ⟨y', hy', hid⟩ := hold hy
    obtain ⟨z', hz', hid'⟩ := hold hz
    exact t.inj ms ks y' z' hy' hz' (hid.trans (heq.trans hid'.symm))

@[simp] theorem write_find (t : FileTree N K A C) (ns : List N) (c : C) (ms : List N) : (t.write ns c).find ms =
    if ms = ns then (t.find ns).map fun x => { x with body := x.body.map fun _ => c } else t.find ms := rfl

theorem write_id {t : FileTree N K A C} {ns ms : List N} {c : C} {x : Node K A C} (hx : t.find ms = some x) :
    ∃ y, (t.write ns c).find ms = some y ∧ y.id = x.id := by
  by_cases h : ms = ns
  · refine ⟨{ x with body := x.body.map fun _ => c }, (if_pos h).trans ?_, rfl⟩
    rw [← h, hx]
    rfl
  · exact ⟨x, (if_neg h).trans hx, rfl⟩

end FileTree

end Fcfs.Lib.Tree

/-! ### The tree of a directory graph -/

namespace Fcfs.Lib.Walks

open Lib.Tree

variable {F N E : Type} [DecidableEq N] (D : Dirs F N E) [DecidablePred D.isDir]

/-- The entry of a name in a directory. -/
def Dirs.entry (g : F) (n : N) : Option E := (D.list g).find? fun e => D.name e = n

/-- **The entry a list of names leads to**, looked up one name after the other. -/
def Dirs.lookup : F → List N → Option E
  | _, [] => none
  | g, [n] => D.entry g n
  | g, n :: m :: ns =>
    (D.entry g n).bind fun e => if D.isDir e then Dirs.lookup (D.node e) (m :: ns) else none

/-- Directories without two entries of one name. -/
def Dirs.Distinct (r : F) : Prop := ∀ ns g, Through D r ns g → ((D.list g).map D.name).Nodup

section Lookup
variable {D} {r g f p : F} {ns ms ps : List N} {n q : N} {e x : E}

omit [DecidablePred D.isDir] in
theorem entry_iff (hnd : ((D.list g).map D.name).Nodup) :
    D.entry g n = some e ↔ e ∈ D.list g ∧ D.name e = n := by
  unfold Dirs.entry
  constructor
  · intro h
    have hname := List.find?_some h
    exact ⟨List.mem_of_find?_eq_some h, of_decide_eq_true hname⟩
  · rintro ⟨he, rfl⟩
    obtain ⟨x, hx⟩ := Option.isSome_iff_exists.mp
      (List.find?_isSome (p := fun x => decide (D.name x = D.name e)).mpr ⟨e, he, decide_eq_true rfl⟩)
    have hname := List.find?_some hx
    rw [hx, List.inj_on_of_nodup_map hnd (List.mem_of_find?_eq_some hx) he (of_decide_eq_true hname)]

theorem lookup_cons (hne : ns ≠ []) : D.lookup g (n :: ns) =
    (D.entry g n).bind fun e => if D.isDir e then D.lookup (D.node e) ns else none := by
  cases ns with
  | nil => exact absurd rfl hne
  | cons m ns => rfl

/-- **A list of names leads to the last entry of a walk.** The induction is on the names. -/
theorem lookup_iff (hnd : D.Distinct g) : D.lookup g (ns ++ [n]) = some e ↔
    ∃ k, Through D g ns k ∧ e ∈ D.list k ∧ D.name e = n := by
  induction ns generalizing g with
  | nil =>
    refine (entry_iff (hnd [] g (Through.nil g))).trans ⟨fun h => ⟨g, Through.nil g, h⟩, ?_⟩
    rintro ⟨k, hk, h⟩
    cases hk
    exact h
  | cons m ns ih =>
    rw [List.cons_append, lookup_cons (by simp), Option.bind_eq_some_iff]
    constructor
    · rintro ⟨x, hx, h⟩
      obtain ⟨hmem, rfl⟩ := (entry_iff (hnd [] g (Through.nil g))).mp hx
      split_ifs at h with hdir
      obtain ⟨k, hk, hlast⟩ := (ih fun ns k hk => hnd _ k (Through.cons hmem hdir hk)).mp h
      exact ⟨k, Through.cons hmem hdir hk, hlast⟩
    · rintro ⟨k, hk, hlast⟩
      cases hk with
      | @cons _ _ x _ hmem hdir hrest =>
        refine ⟨x, (entry_iff (hnd [] g (Through.nil g))).mpr ⟨hmem, rfl⟩, ?_⟩
        rw [if_pos hdir]
        exact (ih fun ns k hk => hnd _ k (Through.cons hmem hdir hk)).mpr ⟨k, hrest, hlast⟩

theorem walk_lookup (hnd : D.Distinct r) (h : Walk D r (ns ++ [n]) f) :
    ∃ e, D.lookup r (ns ++ [n]) = some e ∧ D.node e = f := by
  obtain ⟨k, hk, e, he, hname, hnode⟩ := walk_snoc.mp h
  exact ⟨e, (lookup_iff hnd).mpr ⟨k, hk, he, hname⟩, hnode⟩

theorem lookup_walk (hnd : D.Distinct r) (h : D.lookup r (ns ++ [n]) = some e) :
    Walk D r (ns ++ [n]) (D.node e) := by
  obtain ⟨k, hk, he, rfl⟩ := (lookup_iff hnd).mp h
  exact hk.snoc he

theorem Once.lookup_inj {A : F → Prop} (h : Once D r A) (hnd : D.Distinct r)
    (he : D.lookup r (ns ++ [n]) = some e) (hx : D.lookup r (ms ++ [q]) = some x)
    (heq : D.node e = D.node x) : ns ++ [n] = ms ++ [q] := by
  obtain ⟨k, hk, hmem, rfl⟩ := (lookup_iff hnd).mp he
  obtain ⟨k', hk', hmem', rfl⟩ := (lookup_iff hnd).mp hx
  have hnode : D.node e ∈ D.nodes k := List.mem_map_of_mem hmem
  obtain rfl := h.apart k k' hk.reach hk'.reach _ hnode (heq ▸ List.mem_map_of_mem hmem')
  rw [h.through_inj hk hk', List.inj_on_of_nodup_map (h.nodup k hk.reach) hmem hmem' heq]

/-- A directory is looked up, unless it is the root. -/
theorem through_lookup (hnd : D.Distinct r) (h : Through D r (ns ++ [n]) g) :
    ∃ e, D.lookup r (ns ++ [n]) = some e ∧ D.isDir e ∧ D.node e = g := by
  obtain ⟨k, hk, e, he, hdir, hname, hnode⟩ := through_snoc h
  exact ⟨e, (lookup_iff hnd).mpr ⟨k, hk, he, hname⟩, hdir, hnode⟩

end Lookup

/-! ### What lookups lead to after a change -/

section Change
variable {D} {L : F → List E} {r f p : F} {e : E} {A A' : F → Prop} {ns ps : List N} {n q : N}
variable (h : Once D r A) (hnd : D.Distinct r) (hnd' : Dirs.Distinct { D with list := L } r)

include hnd hnd'

/-- Nothing changes when the directories that can be reached do not. -/
theorem lookup_congr (hsame : ∀ g, Reach D r g → L g = D.list g) :
    Dirs.lookup { D with list := L } r (ns ++ [n]) = D.lookup r (ns ++ [n]) := by
  refine Option.ext fun x => ?_
  rw [lookup_iff hnd, lookup_iff hnd']
  constructor
  · rintro ⟨k, hk, hx, hname⟩
    have hold := (through_congr hsame).mp hk
    change x ∈ L k at hx
    rw [hsame k hold.reach] at hx
    exact ⟨k, hold, hx, hname⟩
  · rintro ⟨k, hk, hx, hname⟩
    refine ⟨k, (through_congr hsame).mpr hk, ?_, hname⟩
    show x ∈ L k
    rw [hsame k hk.reach]
    exact hx

include h

/-- **An entry more** is looked up in its directory, and no other is. -/
theorem Gained.lookup (ha : Gained D L r p e) (hp : Through D r ps p) :
    Dirs.lookup { D with list := L } r (ns ++ [n]) =
      if ns ++ [n] = ps ++ [D.name e] then some e else D.lookup r (ns ++ [n]) := by
  by_cases heq : ns ++ [n] = ps ++ [D.name e]
  · rw [if_pos heq, heq]
    refine (lookup_iff hnd').mpr ⟨p, ha.through hp, ?_, rfl⟩
    show e ∈ L p
    rw [ha.dir]
    exact List.mem_append_right _ (List.mem_singleton_self e)
  · rw [if_neg heq]
    refine Option.ext fun x => ?_
    rw [lookup_iff hnd, lookup_iff hnd']
    constructor
    · rintro ⟨k, hk, hx, rfl⟩
      change x ∈ L k at hx
      rcases ha.through_old hk with hold | rfl
      · rcases ha.mem hold.reach hx with hx | ⟨rfl, rfl⟩
        · exact ⟨k, hold, hx, rfl⟩
        · exact absurd (by rw [h.through_inj hold hp]) heq
      · rw [ha.new] at hx
        cases hx
    · rintro ⟨k, hk, hx, hname⟩
      exact ⟨k, ha.through hk, ha.sub hk.reach hx, hname⟩

/-- **An entry less** is not looked up any more, and every other is. -/
theorem Taken.lookup (ht : Taken D L r p f) (hleaf : Reach D r f → D.list f = [])
    (hq : Walk D r (ps ++ [q]) f) :
    Dirs.lookup { D with list := L } r (ns ++ [n]) =
      if ns ++ [n] = ps ++ [q] then none else D.lookup r (ns ++ [n]) := by
  obtain ⟨y, hy, rfl⟩ := walk_lookup hnd hq
  by_cases heq : ns ++ [n] = ps ++ [q]
  · rw [if_pos heq, Option.eq_none_iff_forall_ne_some]
    intro x hx
    obtain ⟨k, hk, hmem, hname⟩ := (lookup_iff hnd').mp hx
    obtain ⟨hold, hkf⟩ := ht.through_old h hk
    obtain ⟨hmem, hxf⟩ := (ht.mem h hold.reach hkf).mp hmem
    have hxy : D.lookup r (ns ++ [n]) = some x := (lookup_iff hnd).mpr ⟨k, hold, hmem, hname⟩
    rw [heq, hy] at hxy
    exact hxf (congrArg D.node (Option.some.inj hxy)).symm
  · rw [if_neg heq]
    refine Option.ext fun x => ?_
    constructor
    · intro hx
      obtain ⟨k, hk, hmem, hname⟩ := (lookup_iff hnd').mp hx
      obtain ⟨hold, hkf⟩ := ht.through_old h hk
      exact (lookup_iff hnd).mpr ⟨k, hold, ((ht.mem h hold.reach hkf).mp hmem).1, hname⟩
    · intro hx
      obtain ⟨k, hk, hmem, hname⟩ := (lookup_iff hnd).mp hx
      have hkf : k ≠ D.node y := by
        rintro rfl
        rw [hleaf hk.reach] at hmem
        cases hmem
      have hxf : D.node x ≠ D.node y := fun hxy => heq (h.lookup_inj hnd hx hy hxy)
      refine (lookup_iff hnd').mpr ⟨k, ht.through h hleaf hk hkf, ?_, hname⟩
      exact (ht.mem h hk.reach hkf).mpr ⟨hmem, hxf⟩

end Change

/-! ### The tree -/

section Tree
variable {T C : Type} (attr : E → T) (bytes : F → C) (x₀ : Node F T C)

/-- What an entry shows. -/
def Dirs.nodeOf (e : E) : Node F T C :=
  ⟨D.node e, attr e, if D.isDir e then none else some (bytes (D.node e))⟩

/-- What stands where, from a root that shows `x₀`. -/
def Dirs.stands (r : F) (ns : List N) : Option (Node F T C) :=
  if ns = [] then some x₀ else (D.lookup r ns).map (D.nodeOf attr bytes)

variable {D attr bytes x₀} {r f p : F} {A A' : F → Prop} {ns ps : List N} {n q : N} {e : E}

theorem stands_root : D.stands attr bytes x₀ r [] = some x₀ := if_pos rfl

theorem stands_snoc : D.stands attr bytes x₀ r (ns ++ [n]) =
    (D.lookup r (ns ++ [n])).map (D.nodeOf attr bytes) := if_neg (by simp)

theorem stands_through (hnd : D.Distinct r) (hid : x₀.id = r) (hdir : x₀.body = none)
    (hg : Through D r ns p) : ∃ x, D.stands attr bytes x₀ r ns = some x ∧ x.body = none ∧ x.id = p := by
  rcases List.eq_nil_or_concat ns with rfl | ⟨ms, m, rfl⟩
  · cases hg
    exact ⟨x₀, stands_root, hdir, hid⟩
  · rw [List.concat_eq_append] at hg ⊢
    obtain ⟨e, he, hisdir, rfl⟩ := through_lookup hnd hg
    refine ⟨D.nodeOf attr bytes e, ?_, if_pos hisdir, rfl⟩
    rw [stands_snoc, he]
    rfl

theorem stands_walk (hnd : D.Distinct r) (hid : x₀.id = r) {x : Node F T C}
    (hx : D.stands attr bytes x₀ r ns = some x) : Walk D r ns x.id := by
  rcases List.eq_nil_or_concat ns with rfl | ⟨ms, m, rfl⟩
  · rw [stands_root] at hx
    obtain rfl := Option.some.inj hx
    rw [hid]
    exact Walk.nil r
  · rw [List.concat_eq_append] at hx ⊢
    rw [stands_snoc] at hx
    obtain ⟨e, he, rfl⟩ := Option.map_eq_some_iff.mp hx
    exact lookup_walk hnd he

theorem walk_stands (hnd : D.Distinct r) (hid : x₀.id = r) (hw : Walk D r ns f) :
    ∃ x, D.stands attr bytes x₀ r ns = some x ∧ x.id = f := by
  rcases List.eq_nil_or_concat ns with rfl | ⟨ms, m, rfl⟩
  · cases hw
    exact ⟨x₀, stands_root, hid⟩
  · rw [List.concat_eq_append] at hw ⊢
    obtain ⟨e, he, rfl⟩ := walk_lookup hnd hw
    refine ⟨D.nodeOf attr bytes e, ?_, rfl⟩
    rw [stands_snoc, he]
    rfl

theorem stands_dir (hnd : D.Distinct r) (hid : x₀.id = r) {x : Node F T C}
    (hx : D.stands attr bytes x₀ r ns = some x) (hbody : x.body = none) : Through D r ns x.id := by
  rcases List.eq_nil_or_concat ns with rfl | ⟨ms, m, rfl⟩
  · rw [stands_root] at hx
    obtain rfl := Option.some.inj hx
    rw [hid]
    exact Through.nil r
  · rw [List.concat_eq_append] at hx ⊢
    rw [stands_snoc] at hx
    obtain ⟨e, he, rfl⟩ := Option.map_eq_some_iff.mp hx
    obtain ⟨k, hk, hmem, rfl⟩ := (lookup_iff hnd).mp he
    refine hk.extend hmem ?_
    by_contra hfile
    exact Option.some_ne_none _ ((if_neg hfile).symm.trans hbody)

theorem stands_file (hdir : x₀.body = none) {x : Node F T C} {c : C}
    (hx : D.stands attr bytes x₀ r ns = some x) (hbody : x.body = some c) : c = bytes x.id := by
  rcases List.eq_nil_or_concat ns with rfl | ⟨ms, m, rfl⟩
  · rw [stands_root] at hx
    obtain rfl := Option.some.inj hx
    exact absurd (hdir.symm.trans hbody) (Option.some_ne_none c).symm
  · rw [List.concat_eq_append] at hx
    rw [stands_snoc] at hx
    obtain ⟨e, -, rfl⟩ := Option.map_eq_some_iff.mp hx
    have hsome : (if D.isDir e then none else some (bytes (D.node e))) = some c := hbody
    split_ifs at hsome
    exact (Option.some.inj hsome).symm

/-- **The names in a directory** are those of its entries. -/
theorem stands_names (hnd : D.Distinct r) (hg : Through D r ns p) :
    D.stands attr bytes x₀ r (ns ++ [n]) ≠ none ↔ n ∈ (D.list p).map D.name := by
  rw [stands_snoc, ne_eq, Option.map_eq_none_iff, ← ne_eq, Option.ne_none_iff_exists', List.mem_map]
  constructor
  · rintro ⟨e, he⟩
    obtain ⟨k, hk, hmem, hname⟩ := (lookup_iff hnd).mp he
    obtain rfl := Walk.unique hnd hk.walk hg.walk
    exact ⟨e, hmem, hname⟩
  · rintro ⟨e, hmem, hname⟩
    exact ⟨e, (lookup_iff hnd).mpr ⟨p, hg, hmem, hname⟩⟩

variable (attr bytes) in
/-- **Directories whose entries name every node once are a tree.** -/
def Once.tree (h : Once D r A) (hnd : D.Distinct r) (hid : x₀.id = r) (hdir : x₀.body = none) :
    FileTree N F T C where
  find := D.stands attr bytes x₀ r
  root := ⟨x₀, stands_root, hdir⟩
  closed ns n hne := by
    rw [stands_snoc] at hne
    have hsome : D.lookup r (ns ++ [n]) ≠ none := fun hnone => hne (by rw [hnone]; rfl)
    obtain ⟨e, he⟩ := Option.ne_none_iff_exists'.mp hsome
    obtain ⟨k, hk, -, -⟩ := (lookup_iff hnd).mp he
    obtain ⟨x, hx, hbody, -⟩ := stands_through hnd hid hdir hk
    exact ⟨x, hx, hbody⟩
  inj ns ms x y hx hy heq := by
    have hroot : ∀ {ns n y}, D.stands attr bytes x₀ r (ns ++ [n]) = some y → y.id ≠ r := by
      intro ns n y hy
      rw [stands_snoc] at hy
      obtain ⟨e, he, rfl⟩ := Option.map_eq_some_iff.mp hy
      obtain ⟨k, hk, hmem, -⟩ := (lookup_iff hnd).mp he
      exact (h.named k hk.reach _ (List.mem_map_of_mem hmem)).1
    rcases List.eq_nil_or_concat ns with rfl | ⟨ns, n, rfl⟩
    · rcases List.eq_nil_or_concat ms with rfl | ⟨ms, m, rfl⟩
      · rfl
      · rw [List.concat_eq_append] at hy
        rw [stands_root] at hx
        obtain rfl := Option.some.inj hx
        exact absurd (heq.symm.trans hid) (hroot hy)
    · rw [List.concat_eq_append] at hx ⊢
      rcases List.eq_nil_or_concat ms with rfl | ⟨ms, m, rfl⟩
      · rw [stands_root] at hy
        obtain rfl := Option.some.inj hy
        exact absurd (heq.trans hid) (hroot hx)
      · rw [List.concat_eq_append] at hy ⊢
        rw [stands_snoc] at hx hy
        obtain ⟨e, he, rfl⟩ := Option.map_eq_some_iff.mp hx
        obtain ⟨e', he', rfl⟩ := Option.map_eq_some_iff.mp hy
        exact h.lookup_inj hnd he he' heq

/-- What stands behind the root is what the entry that is looked up shows. -/
theorem Once.find_snoc (h : Once D r A) (hnd : D.Distinct r) (hid : x₀.id = r) (hdir : x₀.body = none) :
    (h.tree attr bytes hnd hid hdir).find (ns ++ [n]) =
      (D.lookup r (ns ++ [n])).map (D.nodeOf attr bytes) := stands_snoc

theorem Once.file_ne (h : Once D r A) (hnd : D.Distinct r) (he : D.lookup r (ns ++ [n]) = some e)
    (hfile : ¬ D.isDir e) (hp : Reach D r p) : D.node e ≠ p := by
  rintro rfl
  obtain ⟨ms, hms⟩ := hp
  obtain ⟨k, hk, hmem, -⟩ := (lookup_iff hnd).mp he
  rcases List.eq_nil_or_concat ms with rfl | ⟨ms, m, rfl⟩
  · have hself : D.node e = r := by cases hms; rfl
    exact (h.named k hk.reach _ (List.mem_map_of_mem hmem)).1 hself
  · rw [List.concat_eq_append] at hms
    obtain ⟨x, hx, hdir, hnode⟩ := through_lookup hnd hms
    have heq := h.lookup_inj hnd he hx hnode.symm
    rw [← heq, he] at hx
    exact hfile (Option.some.inj hx ▸ hdir)

theorem Once.lookup_named (h : Once D r A) (hnd : D.Distinct r) (he : D.lookup r (ns ++ [n]) = some e) :
    D.node e ≠ r ∧ A (D.node e) := by
  obtain ⟨k, hk, hmem, -⟩ := (lookup_iff hnd).mp he
  exact h.named k hk.reach _ (List.mem_map_of_mem hmem)

/-! ### The tree after a change -/

variable {L : F → List E} {bytes' : F → C} (h : Once D r A) (hnd : D.Distinct r)
  (h' : Once { D with list := L } r A') (hnd' : Dirs.Distinct { D with list := L } r)
  (hid : x₀.id = r) (hdir : x₀.body = none)

omit [DecidableEq N] in
theorem nodeOf_congr (hbytes : ¬ D.isDir e → bytes' (D.node e) = bytes (D.node e)) :
    D.nodeOf attr bytes' e = D.nodeOf attr bytes e := by
  unfold Dirs.nodeOf
  by_cases hisdir : D.isDir e
  · rw [if_pos hisdir, if_pos hisdir]
  · rw [if_neg hisdir, if_neg hisdir, hbytes hisdir]

/-- Without entries there is nothing but the root. -/
theorem Once.tree_single (hroot : D.list r = []) :
    h.tree attr bytes hnd hid hdir = FileTree.single x₀ hdir := by
  refine FileTree.ext fun ns => ?_
  rcases List.eq_nil_or_concat ns with rfl | ⟨ns, n, rfl⟩
  · rfl
  · rw [List.concat_eq_append]
    refine stands_snoc.trans (Eq.trans ?_ (if_neg (by simp)).symm)
    rw [Option.map_eq_none_iff, Option.eq_none_iff_forall_ne_some]
    intro e he
    obtain ⟨k, hk, hmem, -⟩ := (lookup_iff hnd).mp he
    cases hk with
    | nil =>
      rw [hroot] at hmem
      cases hmem
    | cons hin _ _ =>
      rw [hroot] at hin
      cases hin

/-- **An entry more is a node put in.** -/
theorem Once.tree_add (ha : Gained D L r p e) (hp : Through D r ps p)
    (hname : D.name e ∉ (D.list p).map D.name) (hdead : ¬ (D.node e = r ∨ A (D.node e)))
    (hbytes : ∀ g, A g → g ≠ p → bytes' g = bytes g) {x : Node F T C} (hx : D.nodeOf attr bytes' e = x)
    (hq : D.name e = q) : ∃ hd hn hi, h'.tree attr bytes' hnd' hid hdir =
      (h.tree attr bytes hnd hid hdir).insert ps q x hd hn hi := by
  subst hx hq
  obtain ⟨y, hy, hbody, -⟩ := stands_through hnd hid hdir hp
  refine ⟨⟨y, hy, hbody⟩, ?_, fun ms y hy heq => ?_, ?_⟩
  · refine stands_snoc.trans ?_
    rw [Option.map_eq_none_iff, Option.eq_none_iff_forall_ne_some]
    intro z hz
    obtain ⟨k, hk, hmem, heq⟩ := (lookup_iff hnd).mp hz
    obtain rfl := Walk.unique hnd hk.walk hp.walk
    exact hname (heq ▸ List.mem_map_of_mem hmem)
  · rcases List.eq_nil_or_concat ms with rfl | ⟨ms, m, rfl⟩
    · obtain rfl : x₀ = y := Option.some.inj hy
      exact hdead (Or.inl (heq.symm.trans hid))
    · rw [List.concat_eq_append] at hy
      obtain ⟨z, hz, rfl⟩ := Option.map_eq_some_iff.mp ((h.find_snoc hnd hid hdir).symm.trans hy)
      have hsame : D.node z = D.node e := heq
      exact hdead (Or.inr (hsame ▸ (h.lookup_named hnd hz).2))
  · refine FileTree.ext fun ns => ?_
    rcases List.eq_nil_or_concat ns with rfl | ⟨ns, n, rfl⟩
    · exact (if_neg (by simp)).symm
    · rw [List.concat_eq_append]
      refine (stands_snoc (D := { D with list := L })).trans ?_
      rw [ha.lookup h hnd hnd' hp]
      by_cases heq : ns ++ [n] = ps ++ [D.name e]
      · rw [if_pos heq]
        exact (if_pos heq).symm
      · rw [if_neg heq]
        refine Eq.trans ?_ (if_neg heq).symm
        refine Eq.trans ?_ stands_snoc.symm
        refine Option.map_congr fun z hz => nodeOf_congr fun hfile => ?_
        exact hbytes _ (h.lookup_named hnd hz).2 (h.file_ne hnd hz hfile hp.reach)

/-- **An entry less is a node taken out.** -/
theorem Once.tree_drop (ht : Taken D L r p f) (hleaf : Reach D r f → D.list f = [])
    (hq : Walk D r (ps ++ [q]) f) (hbytes : ∀ g, A g → g ≠ p → g ≠ f → bytes' g = bytes g) :
    ∃ hl, h'.tree attr bytes' hnd' hid hdir = (h.tree attr bytes hnd hid hdir).erase ps q hl := by
  refine ⟨fun m => ?_, FileTree.ext fun ns => ?_⟩
  · refine stands_snoc.trans ?_
    rw [Option.map_eq_none_iff, Option.eq_none_iff_forall_ne_some]
    intro x hx
    obtain ⟨k, hk, hmem, -⟩ := (lookup_iff hnd).mp hx
    obtain rfl := Walk.unique hnd hk.walk hq
    rw [hleaf hk.reach] at hmem
    cases hmem
  · rcases List.eq_nil_or_concat ns with rfl | ⟨ns, n, rfl⟩
    · exact (if_neg (by simp)).symm
    · rw [List.concat_eq_append]
      refine (stands_snoc (D := { D with list := L })).trans ?_
      rw [ht.lookup h hnd hnd' hleaf hq]
      by_cases heq : ns ++ [n] = ps ++ [q]
      · rw [if_pos heq]
        exact (if_pos heq).symm
      · rw [if_neg heq]
        refine Eq.trans ?_ (if_neg heq).symm
        refine Eq.trans ?_ stands_snoc.symm
        refine Option.map_congr fun x hx => nodeOf_congr fun hfile => ?_
        refine hbytes _ (h.lookup_named hnd hx).2 (h.file_ne hnd hx hfile ht.reach) fun hxf => heq ?_
        obtain ⟨y, hy, hyf⟩ := walk_lookup hnd hq
        exact h.lookup_inj hnd hx hy (hxf.trans hyf.symm)

/-- **Other contents of a file are a write.** -/
theorem Once.tree_write (hsame : ∀ g, Reach D r g → L g = D.list g) (hq : Walk D r (ps ++ [q]) f)
    (hbytes : ∀ g, A g → ¬ Reach D r g → g ≠ f → bytes' g = bytes g) :
    h'.tree attr bytes' hnd' hid hdir = (h.tree attr bytes hnd hid hdir).write (ps ++ [q]) (bytes' f) := by
  obtain ⟨y, hy, rfl⟩ := walk_lookup hnd hq
  refine FileTree.ext fun ns => ?_
  rcases List.eq_nil_or_concat ns with rfl | ⟨ns, n, rfl⟩
  · exact (if_neg (by simp)).symm
  · rw [List.concat_eq_append]
    refine (stands_snoc (D := { D with list := L })).trans ?_
    rw [lookup_congr hnd hnd' hsame]
    by_cases heq : ns ++ [n] = ps ++ [q]
    · refine Eq.trans ?_ (if_pos heq).symm
      refine Eq.trans ?_ (congrArg _ stands_snoc.symm)
      rw [heq, hy]
      refine congrArg some ?_
      unfold Dirs.nodeOf
      by_cases hisdir : D.isDir y
      · rw [if_pos hisdir, if_pos hisdir]
        rfl
      · rw [if_neg hisdir, if_neg hisdir]
        rfl
    · refine Eq.trans ?_ (if_neg heq).symm
      refine Eq.trans ?_ stands_snoc.symm
      refine Option.map_congr fun x hx => nodeOf_congr fun hfile => ?_
      refine hbytes _ (h.lookup_named hnd hx).2 (fun hp => h.file_ne hnd hx hfile hp rfl) fun hxy => heq ?_
      exact h.lookup_inj hnd hx hy hxy

end Tree

end Fcfs.Lib.Walks
