import Fcfs.Vol.TreeRun
import Mathlib.Data.List.Forall2

/-! # Every volume answers alike

What is answered depends on the calls and on nothing else: on two formatted volumes, of whatever size, with
whatever key, free blocks and memory behind them, the same calls are answered alike and leave the same tree
(`answers_alike`). For that a call has one outcome on a tree (`Does.alike`), up to the order of the names in
a directory, what lies over in its size, and the record of a name that is not there. -/

namespace Fcfs.Vol

open Lib.Bytes Lib.Walks Lib.Tree

/-! ### One outcome -/

/-- Records that differ at most in what lies over in the size of a directory. -/
structure SameStat (st st' : Stat) : Prop where
  fields : st' = { st with stSize := st'.stSize }
  entries : st'.stSize / 64 = st.stSize / 64
  size : st.stMode &&& 0o170000 ≠ 0o40000 → st'.stSize = st.stSize

/-- **Replies that mean the same.** -/
inductive SameReply : Reply → Reply → Prop
  | refl (r : Reply) : SameReply r r
  | stat {st st' : Stat} (h : SameStat st st') : SameReply (.stat 0 st) (.stat 0 st')
  | missing (st st' : Stat) : SameReply (.stat (-enoent) st) (.stat (-enoent) st')
  | names {l l' : List (List UInt8)} (h : l'.Perm l) : SameReply (.names 0 l) (.names 0 l')

/-- The mode of what stands anywhere says whether it is a directory. -/
def Typed (t : FsTree) : Prop :=
  ∀ ns x, t.find ns = some x → (x.body = none ↔ x.attr.mode &&& 0o170000 = 0o40000)

section Typed
variable {a b : Args} {t u u' : FsTree} {c : Call} {r r' : Reply}

theorem typed_noFiles : Typed noFiles := by
  intro ns x hx
  by_cases hns : ns = []
  · subst hns
    obtain rfl : rootNode = x := Option.some.inj hx
    exact ⟨fun _ => by decide, fun _ => rfl⟩
  · rw [find_noFiles hns] at hx
    cases hx

theorem newNode_typed (f : ℤ) (now : UInt64) (mode : UInt32) :
    (newNode f now mode).body = none ↔ (newNode f now mode).attr.mode &&& 0o170000 = 0o40000 := by
  unfold newNode
  dsimp only
  split_ifs with h
  · exact ⟨fun _ => h, fun _ => rfl⟩
  · exact ⟨False.elim, fun heq => absurd heq h⟩

theorem Typed.insert {ns : List (List UInt8)} {n : List UInt8} {x : FsNode} {hd hn hi} (ht : Typed t)
    (hx : x.body = none ↔ x.attr.mode &&& 0o170000 = 0o40000) : Typed (t.insert ns n x hd hn hi) := by
  intro ms y hy
  rw [FileTree.insert_find] at hy
  split_ifs at hy with h
  · obtain rfl := Option.some.inj hy
    exact hx
  · exact ht ms y hy

theorem Typed.erase {ns : List (List UInt8)} {n : List UInt8} {hl} (ht : Typed t) :
    Typed (t.erase ns n hl) := by
  intro ms y hy
  rw [FileTree.erase_find] at hy
  split_ifs at hy
  exact ht ms y hy

theorem Typed.write {ns : List (List UInt8)} {l : List UInt8} (ht : Typed t) : Typed (t.write ns l) := by
  intro ms y hy
  rw [FileTree.write_find] at hy
  split_ifs at hy with h
  · obtain ⟨x, hx, rfl⟩ := Option.map_eq_some_iff.mp hy
    exact Option.map_eq_none_iff.trans (ht ns x hx)
  · exact ht ms y hy

theorem Does.typed (h : Does a t c r u) (ht : Typed t) : Typed u := by
  cases h with
  | mkdir => exact ht.insert (newNode_typed _ _ _)
  | create => exact ht.insert (newNode_typed _ _ _)
  | unlink => exact ht.erase
  | rmdir => exact ht.erase
  | write => exact ht.write
  | _ => exact ht

theorem FreePlace.unique {D D' : Path} {name name' : List UInt8} (h : FreePlace t D name)
    (h' : FreePlace t D' name') (heq : joinPath D name = joinPath D' name') : D = D' ∧ name = name' := by
  have hdir : some D = some D' := by
    rw [← parentPath_join h.head h.slash, heq, parentPath_join h'.head h'.slash]
  have hname : some name = some name' := by
    rw [← baseName_join D h.slash, heq, baseName_join D' h'.slash]
  exact ⟨Option.some.inj hdir, Option.some.inj hname⟩

theorem FreePlace.find {D : Path} {name : List UInt8} (h : FreePlace t D name) :
    t.find (components (joinPath D name)) = none := by
  rw [components_join h.head h.slash h.ne]
  exact h.free

/-- **What is filled in** is the same up to what lies over in the size of a directory. -/
theorem SizeAt.sameStat (ht : Typed t) (huid : b.uid = a.uid) (hgid : b.gid = a.gid)
    {ns : List (List UInt8)} {x : FsNode} (hx : t.find ns = some x) {size size' : ℤ} (h : SizeAt t ns x size)
    (h' : SizeAt t ns x size') (now : UInt64) : SameStat (statOf a now x size) (statOf b now x size') := by
  unfold SizeAt at h h'
  have hsizes : size' / 64 = size / 64 ∧ (x.body ≠ none → size' = size) := by
    cases hbody : x.body with
    | some c =>
      rw [hbody] at h h'
      obtain rfl := h.trans h'.symm
      exact ⟨rfl, fun _ => rfl⟩
    | none =>
      rw [hbody] at h h'
      exact ⟨h'.trans h.symm, fun hne => absurd rfl hne⟩
  have hmode : (statOf a now x size).stMode = x.attr.mode := by
    unfold statOf
    split_ifs <;> rfl
  have hsize : ∀ (d : Args) (n : ℤ), (statOf d now x n).stSize = n := fun d n => by
    unfold statOf
    split_ifs <;> rfl
  refine ⟨?_, by rw [hsize, hsize]; exact hsizes.1, fun hfile => ?_⟩
  · rw [hsize]
    unfold statOf
    rw [huid, hgid]
    split_ifs <;> rfl
  · rw [hsize, hsize]
    rw [hmode] at hfile
    exact hsizes.2 fun hnone => hfile ((ht ns x hx).mp hnone)

/-- **A call has one outcome**: the same tree and replies that mean the same. -/
theorem Does.alike (ht : Typed t) (huid : b.uid = a.uid) (hgid : b.gid = a.gid) (h : Does a t c r u)
    (h' : Does b t c r' u') : SameReply r r' ∧ u' = u := by
  cases h with
  | getattr hx hsize =>
    cases h' with
    | getattr hx' hsize' =>
      obtain rfl := Option.some.inj (hx.symm.trans hx')
      exact ⟨.stat (hsize.sameStat ht huid hgid hx hsize' _), rfl⟩
    | missing hpath hfree =>
      rw [hpath, hfree.find] at hx
      cases hx
  | missing hpath hfree =>
    cases h' with
    | getattr hx hsize =>
      rw [hpath, hfree.find] at hx
      cases hx
    | missing => exact ⟨.missing _ _, rfl⟩
  | readdir hnd hnames =>
    cases h' with
    | readdir hnd' hnames' =>
      refine ⟨.names ?_, rfl⟩
      have hperm := (List.perm_ext_iff_of_nodup hnd' hnd).mpr fun n => (hnames' n).trans (hnames n).symm
      exact (hperm.cons _).cons _
  | mkdir hpath hfree hf =>
    cases h' with
    | mkdir hpath' hfree' hf' =>
      obtain ⟨rfl, rfl⟩ := hfree.unique hfree' (hpath.symm.trans hpath')
      obtain rfl := hf.unique hf'
      exact ⟨.refl _, rfl⟩
  | create hpath hfree hf =>
    cases h' with
    | create hpath' hfree' hf' =>
      obtain ⟨rfl, rfl⟩ := hfree.unique hfree' (hpath.symm.trans hpath')
      obtain rfl := hf.unique hf'
      exact ⟨.refl _, rfl⟩
  | unlink hpath hx =>
    cases h' with
    | unlink hpath' hx' =>
      obtain ⟨rfl, hname⟩ := List.append_inj' (hpath.symm.trans hpath') rfl
      obtain rfl := List.cons.inj hname |>.1
      exact ⟨.refl _, rfl⟩
    | unlinkRoot hroot =>
      rw [hroot] at hpath
      cases List.concat_ne_nil _ _ hpath.symm
  | rmdir hpath hx =>
    cases h' with
    | rmdir hpath' hx' =>
      obtain ⟨rfl, hname⟩ := List.append_inj' (hpath.symm.trans hpath') rfl
      obtain rfl := List.cons.inj hname |>.1
      exact ⟨.refl _, rfl⟩
    | rmdirRoot hroot =>
      rw [hroot] at hpath
      cases List.concat_ne_nil _ _ hpath.symm
  | unlinkRoot hroot =>
    cases h' with
    | unlink hpath hx =>
      rw [hroot] at hpath
      cases List.concat_ne_nil _ _ hpath.symm
    | unlinkRoot => exact ⟨.refl _, rfl⟩
  | rmdirRoot hroot =>
    cases h' with
    | rmdir hpath hx =>
      rw [hroot] at hpath
      cases List.concat_ne_nil _ _ hpath.symm
    | rmdirRoot => exact ⟨.refl _, rfl⟩
  | opn hx =>
    cases h' with
    | opn hx' =>
      obtain rfl := Option.some.inj (hx.symm.trans hx')
      exact ⟨.refl _, rfl⟩
  | opendir hx =>
    cases h' with
    | opendir hx' =>
      obtain rfl := Option.some.inj (hx.symm.trans hx')
      exact ⟨.refl _, rfl⟩
  | read hx hid hfile hoff =>
    cases h' with
    | read hx' hid' hfile' hoff' =>
      obtain rfl := t.inj _ _ _ _ hx hx' (hid.trans hid'.symm)
      obtain rfl := Option.some.inj (hx.symm.trans hx')
      obtain rfl := Option.some.inj (hfile.symm.trans hfile')
      exact ⟨.refl _, rfl⟩
  | write hx hfile hfh hoff =>
    cases h' with
    | write hx' hfile' hfh' hoff' =>
      obtain rfl := Option.some.inj (hx.symm.trans hx')
      obtain rfl := Option.some.inj (hfile.symm.trans hfile')
      exact ⟨.refl _, rfl⟩
  | utimens => cases h'; exact ⟨.refl _, rfl⟩
  | chown => cases h'; exact ⟨.refl _, rfl⟩
  | truncate => cases h'; exact ⟨.refl _, rfl⟩
  | flush => cases h'; exact ⟨.refl _, rfl⟩
  | release => cases h'; exact ⟨.refl _, rfl⟩
  | releasedir => cases h'; exact ⟨.refl _, rfl⟩

/-- Calls one after the other have the same replies too. The induction is on the calls. -/
theorem DoesAll.alike (huid : b.uid = a.uid) (hgid : b.gid = a.gid) {cs : List Call} {rs rs' : List Reply}
    (ht : Typed t) (h : DoesAll a t cs rs u) (h' : DoesAll b t cs rs' u') :
    List.Forall₂ SameReply rs rs' ∧ u' = u := by
  induction h generalizing rs' with
  | nil =>
    cases h'
    exact ⟨.nil, rfl⟩
  | cons hdo hall ih =>
    cases h' with
    | cons hdo' hall' =>
      obtain ⟨hr, rfl⟩ := hdo.alike ht huid hgid hdo'
      obtain ⟨hrs, heq⟩ := ih (hdo.typed ht) hall'
      exact ⟨.cons hr hrs, heq⟩

end Typed

/-- **What is answered on a formatted volume depends on the calls alone.** -/
theorem answers_alike {a b : Args} {s t : St} (ha : Formatted a s) (hb : Formatted b t) (hna : Numbered a)
    (hnb : Numbered b) (huid : b.uid = a.uid) (hgid : b.gid = a.gid) {cs : List Call} (hs : Served a cs s)
    (ht : Served b cs t) : ∃ rs s' rs' t', replies a cs s = some (rs, s') ∧
      replies b cs t = some (rs', t') ∧ List.Forall₂ SameReply rs rs' ∧
        ∃ (h : TreeOk a s') (h' : TreeOk b t'), treeOf h' = treeOf h := by
  obtain ⟨rs, s', hrun, h, hall⟩ := ha.treeOk.calls hna cs hs
  obtain ⟨rs', t', hrun', h', hall'⟩ := hb.treeOk.calls hnb cs ht
  rw [ha.treeOf_eq] at hall
  rw [hb.treeOf_eq] at hall'
  obtain ⟨hrs, heq⟩ := hall.alike huid hgid typed_noFiles hall'
  exact ⟨rs, s', rs', t', hrun, hrun', hrs, h, h', heq⟩

/-- On a volume of seven clusters that are cleared and one of seventeen that are not. -/
theorem answers_alike_seven : ∃ rs s' rs' t', replies sevenArgs makeAndRemove sevenFresh = some (rs, s') ∧
    replies wideArgs makeAndRemove (freshSt wideHead 83) = some (rs', t') ∧ List.Forall₂ SameReply rs rs' ∧
      ∃ (h : TreeOk sevenArgs s') (h' : TreeOk wideArgs t'), treeOf h' = treeOf h :=
  have hwide : Formatted wideArgs (freshSt wideHead 83) := formatted_freshSt geo_wideHead (by decide) 83
  answers_alike formatted_sevenFresh hwide numbered_seven numbered_wide rfl rfl
    (formatted_sevenFresh.served numbered_seven (by decide) (by decide))
    (hwide.served numbered_wide (by decide) (by decide))

end Fcfs.Vol
