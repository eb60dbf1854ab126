import Fcfs.Vol.Lasting
import Fcfs.Vol.Roomy

/-! # Calls that fit are served

What is asked of a run in `serves_sessions` is asked of the states of the driver it goes through. Here it is
asked of the tree alone (`Fitting`): each call makes sense for the tree it finds, no file is made in a session
after one has been removed in it, nothing is removed that needs a second-level list, and every tree has room.
Then no state has to be looked at: whatever the calls, the driver answers them as the tree does, from the
formatter on and through all sessions (`serves_fitting`). -/

namespace Fcfs.Vol

open Lib.Bytes Lib.Walks Lib.Tree Persist Fmtr.Volume

/-! ### One call -/

/-- The call makes a file or a directory. -/
def Makes : Call → Prop
  | .mkdir _ _ _ => True
  | .create _ _ _ => True
  | _ => False

/-- What the call removes needs no second-level list. -/
def Spares (a : Args) (w : ℕ) (t : FsTree) : Call → Prop
  | .unlink path => ∀ x, t.find (components path) = some x → x.id ≠ 0 → blocksOf a w x ≤ 13
  | .rmdir path => ∀ x, t.find (components path) = some x → x.id ≠ 0 → blocksOf a w x ≤ 13
  | _ => True

section Call
variable {a : Args} {w : ℕ} {s s' : St} {c : Call} (h : TreeOk a s) (hn : Numbered a)
  (hk : KeepsTo a (allotted a w (treeOf h)) s) (hask : Sensible (treeOf h) c)
  (hroomy : ∀ r u, Does a (treeOf h) c r u → Roomy a w u)
include h hn hk hask hroomy

/-- **Nothing runs out** if there is room for the trees the call leads to. -/
theorem KeepsTo.roomFor : RoomFor a s c := by
  cases c with
  | mkdir now path mode =>
    obtain ⟨D, name, rfl, hfree, -⟩ := hask
    obtain ⟨f, hf⟩ := h.exists_unused
    have hi : ∀ ms y, (treeOf h).find ms = some y → y.id ≠ (newNode f now (0o40000 ||| mode)).id := hf.1.2
    exact hk.makeOk h hn hfree hf rfl
      (hroomy (.code 0) ((treeOf h).insert _ _ _ hfree.dir hfree.free hi) (.mkdir rfl hfree hf))
  | create now path mode =>
    obtain ⟨D, name, rfl, hfree, -⟩ := hask
    obtain ⟨f, hf⟩ := h.exists_unused
    have hi : ∀ ms y, (treeOf h).find ms = some y → y.id ≠ (newNode f now (0o100000 ||| mode)).id := hf.1.2
    exact hk.makeOk h hn hfree hf rfl
      (hroomy (.code 0) ((treeOf h).insert _ _ _ hfree.dir hfree.free hi) (.create rfl hfree hf))
  | write path data size offset fh =>
    obtain ⟨hhead, x, c, hx, hfile, hfh, hoff⟩ := hask
    exact hk.writeOk h hx hfile hoff rfl (hroomy _ _ (.write hx hfile hfh hoff)) hhead hfh
  | _ => trivial

/-- **The files keep to what the next tree allots them.** -/
theorem KeepsTo.call (hspare : Spares a w (treeOf h) c) (hfresh : FreshFor a s c) {r : Reply}
    (hrun : c.run a s = some (r, s')) (h' : TreeOk a s') : KeepsTo a (allotted a w (treeOf h')) s' := by
  have hroom := hk.roomFor h hn hask hroomy
  cases c with
  | mkdir now path mode =>
    obtain ⟨⟨r', u⟩, hop, heq⟩ := Option.map_eq_some_iff.mp hrun
    obtain ⟨-, rfl⟩ := Prod.mk.inj heq
    obtain ⟨D, name, rfl, hfree, hlen⟩ := hask
    obtain ⟨v, hop', h'', f, hf, hd, hnone, hi, htree⟩ := h.makes hn hfree hlen hroom hfresh (Or.inr ⟨rfl, rfl⟩)
    obtain ⟨-, rfl⟩ := Prod.mk.inj (Option.some.inj (hop.symm.trans hop'))
    have hu : Roomy a w (treeOf h') := by
      rw [htree]
      exact hroomy _ _ (.mkdir rfl hfree hf)
    exact hk.make h hn hfree hf htree hu hfresh (Or.inr rfl) hop
  | create now path mode =>
    obtain ⟨⟨r', u⟩, hop, heq⟩ := Option.map_eq_some_iff.mp hrun
    obtain ⟨-, rfl⟩ := Prod.mk.inj heq
    obtain ⟨D, name, rfl, hfree, hlen⟩ := hask
    obtain ⟨v, hop', h'', f, hf, hd, hnone, hi, htree⟩ := h.makes hn hfree hlen hroom hfresh (Or.inl ⟨rfl, rfl⟩)
    obtain ⟨-, rfl⟩ := Prod.mk.inj (Option.some.inj (hop.symm.trans hop'))
    have hu : Roomy a w (treeOf h') := by
      rw [htree]
      exact hroomy _ _ (.create rfl hfree hf)
    exact hk.make h hn hfree hf htree hu hfresh (Or.inl rfl) hop
  | unlink path =>
    obtain ⟨⟨r', u⟩, hop, heq⟩ := Option.map_eq_some_iff.mp hrun
    obtain ⟨-, rfl⟩ := Prod.mk.inj heq
    exact hk.remove h hn hask.1 hask.2.1 hask.2.2 hspare hop h'
  | rmdir path =>
    obtain ⟨⟨r', u⟩, hop, heq⟩ := Option.map_eq_some_iff.mp hrun
    obtain ⟨-, rfl⟩ := Prod.mk.inj heq
    exact hk.remove h hn hask.1 hask.2.1 hask.2.2 hspare hop h'
  | write path data size offset fh =>
    obtain ⟨⟨f, t⟩, -, hrun⟩ := Option.bind_eq_some_iff.mp hrun
    obtain ⟨⟨r', u⟩, hop, hrun⟩ := Option.bind_eq_some_iff.mp hrun
    obtain ⟨-, rfl⟩ := Prod.mk.inj (Option.some.inj hrun)
    obtain ⟨hhead, x, c, hx, hfile, hfh, hoff⟩ := hask
    obtain ⟨v, hop', h'', htree⟩ := h.write_tree hn hhead hx hfile hfh hroom hoff
    obtain ⟨-, rfl⟩ := Prod.mk.inj (Option.some.inj (hop.symm.trans hop'))
    have hu : Roomy a w (treeOf h') := by
      rw [htree]
      exact hroomy _ _ (.write hx hfile hfh hoff)
    exact hk.write h hx hfile hoff htree hu hhead hfh hn hop
  | _ =>
    have hsame := sameVol_call (by trivial) hrun
    rw [h.treeOf_congr h' hsame.dev]
    exact hk.congr hsame.dev hsame.table

end Call

/-! ### Sessions -/

/-- **The calls fit**: each makes sense for the tree it finds, none makes a file once something has been
removed, what is removed has no second-level list, and there is room for every tree that is made. -/
def Fitting (a : Args) (w : ℕ) : Prop → FsTree → List Call → Prop
  | _, _, [] => True
  | removed, t, c :: cs => Sensible t c ∧ (removed → ¬ Makes c) ∧ Spares a w t c ∧
      ∀ r u, Does a t c r u → Roomy a w u ∧ Fitting a w (removed ∨ Removes c) u cs

/-- The calls of each session fit. -/
def FittingIn (a : Args) (w : ℕ) : FsTree → List Session → Prop
  | _, [] => True
  | t, x :: xs => Fitting (remounted a x.junk x.uid x.gid) w False t x.calls ∧
      ∀ rs u, DoesAll (remounted a x.junk x.uid x.gid) t x.calls rs u → FittingIn a w u xs

section Run
variable {a : Args} {w : ℕ}

/-- **Calls that fit are served**, and the files keep to what the trees allot them. The induction is on the
calls. -/
theorem Fitting.asked (hn : Numbered a) (cs : List Call) {removed : Prop} {s : St} (h : TreeOk a s)
    (hk : KeepsTo a (allotted a w (treeOf h)) s) (hc : ¬ removed → Clear a s)
    (hfit : Fitting a w removed (treeOf h) cs) :
    Asked a removed cs s ∧ ∀ rs t, replies a cs s = some (rs, t) → ∀ h' : TreeOk a t,
      KeepsTo a (allotted a w (treeOf h')) t := by
  induction cs generalizing removed s with
  | nil =>
    refine ⟨trivial, fun rs t hrun h' => ?_⟩
    obtain ⟨-, rfl⟩ := Prod.mk.inj (Option.some.inj hrun)
    exact hk
  | cons c cs ih =>
    obtain ⟨hask, hno, hspare, hnext⟩ := hfit
    have hroomy : ∀ r u, Does a (treeOf h) c r u → Roomy a w u := fun r u hdo => (hnext r u hdo).1
    have hroom := hk.roomFor h hn hask hroomy
    have hfresh : FreshFor a s c := by
      by_cases hrem : removed
      · have hkeep := hno hrem
        cases c with
        | mkdir => exact absurd trivial hkeep
        | create => exact absurd trivial hkeep
        | _ => trivial
      · exact (hc hrem).freshFor h hn hask hroom
    obtain ⟨r, u, hrun, hu, hdo⟩ := h.call hn c hask hroom hfresh
    have hku := hk.call h hn hask hroomy hspare hfresh hrun hu
    have hcu : ¬ (removed ∨ Removes c) → Clear a u := fun hrest => by
      obtain ⟨hrem, hkeep⟩ := not_or.mp hrest
      exact (hc hrem).call h hn hkeep hask hroom hrun
    obtain ⟨hasked, hkept⟩ := ih hu hku hcu (hnext r _ hdo).2
    refine ⟨⟨fun _ => hask, hroom, fun _ => hfresh, fun r' u' hrun' => ?_⟩, fun rs t hruns h' => ?_⟩
    · obtain ⟨rfl, rfl⟩ := Prod.mk.inj (Option.some.inj (hrun.symm.trans hrun'))
      exact hasked
    · obtain ⟨⟨r', u'⟩, hrun', hruns⟩ := Option.bind_eq_some_iff.mp hruns
      obtain ⟨rfl, rfl⟩ := Prod.mk.inj (Option.some.inj (hrun.symm.trans hrun'))
      obtain ⟨⟨rs', v⟩, hcalls, heq⟩ := Option.bind_eq_some_iff.mp hruns
      obtain ⟨-, rfl⟩ := Prod.mk.inj (Option.some.inj heq)
      exact hkept rs' v hcalls h'

theorem KeepsTo.reopen {b : ℤ → ℕ} {s : St} (h : KeepsTo a b s) (junk : Buf) (uid gid : UInt32) :
    KeepsTo (remounted a junk uid gid) b s :=
  ⟨⟨h.acc.known, h.acc.whole, h.acc.claims⟩,
    fun f hf hf0 cl hst => h.tight f hf hf0 cl (hst.reopen a.junk a.uid a.gid), h.blks⟩

theorem KeepsTo.reopened {b : ℤ → ℕ} {s t : St} (h : KeepsTo a b s) (hr : Reopened a s t) : KeepsTo a b t := by
  have hback : t.fsTable.Same s.fsTable := ⟨hr.table.hash.symm, fun g h0 hg => (hr.table.lnk g h0 hg).symm,
    fun g h0 hg i hi => (hr.table.clrs g h0 hg i hi).symm⟩
  refine ⟨h.acc.congr (by rw [hr.dev]) (longFiles_congr fun g h1 hgt => ?_), fun f hf hf0 cl hst => ?_,
    fun f h1 hft => ?_⟩
  · rw [secAddr_same hr.table (by omega) hgt, hr.table.lnk g (by omega) hgt]
  · rw [hr.dev] at hst ⊢
    exact h.tight f ((live_same hr.table).mp hf) hf0 cl (hst.same hback hf.nonneg hf.lt)
  · rw [hr.dev]
    exact h.blks f h1 hft

theorem Formatted.keepsTo {s : St} (h : Formatted a s) (b : ℤ → ℕ) : KeepsTo a b s := by
  refine ⟨h.accounted, fun f hf hf0 => absurd ?_ hf.lnk, fun f h1 hft => ?_⟩
  · have h0 := hf.nonneg
    exact (h.entrs f (by omega) hf.lt).lnk
  · have hnone : carrying a (tab a s.dev) (u32 f) = ∅ := Finset.eq_empty_of_forall_notMem fun q hq => by
      have hfid := (Finset.mem_filter.mp hq).2
      rw [h.allFree q.1 q.2] at hfid
      exact (u32_fid (by omega) hft).1 hfid.symm
    rw [← card_file (by omega), hnone, Finset.card_empty]
    exact Nat.zero_le _

theorem tailClear_dvd (h8 : 8 ∣ a.cluCnt) (s : St) : TailClear a s := fun c hge hc => by
  rw [Nat.mul_div_cancel' h8] at hge
  omega

/-- **Sessions whose calls fit are served**, whatever state their memory is in. The induction is on the
sessions. -/
theorem FittingIn.servedIn (hn : Numbered a) (hr : Regions a.fsHead) (h8 : 8 ∣ a.cluCnt) (xs : List Session) {s : St}
    (h : TreeOk a s) (hs : Synced a s) (hk : KeepsTo a (allotted a w (treeOf h)) s)
    (hfit : FittingIn a w (treeOf h) xs) : ServedIn a xs s.dev := by
  induction xs generalizing s with
  | nil => trivial
  | cons x xs ih =>
    obtain ⟨hcalls, hrest⟩ := hfit
    obtain ⟨t, hop, hst, hin⟩ := hs.mount x.junk x.uid x.gid hr
    have hre := hin.reopened x.junk hr (tailClear_dvd h8 s)
    obtain ⟨ht, htree⟩ := hre.treeOk h
    obtain ⟨ht', htree'⟩ := ht.reopen x.junk x.uid x.gid
    rw [← htree, ← htree'] at hcalls hrest hk
    have hn' : Numbered (remounted a x.junk x.uid x.gid) := ⟨hn.clus, hn.fids⟩
    have hkt : KeepsTo (remounted a x.junk x.uid x.gid)
        (allotted (remounted a x.junk x.uid x.gid) w (treeOf ht')) t := (hk.reopened hre).reopen _ _ _
    have hclear := hre.clear.reopen x.junk x.uid x.gid
    obtain ⟨hasked, hkept⟩ := hcalls.asked hn' x.calls ht' hkt fun _ => hclear
    intro b u hop'
    obtain ⟨rfl, rfl⟩ := Prod.mk.inj (Option.some.inj (hop.symm.trans hop'))
    refine ⟨hasked, fun rs v hrun => ⟨tailClear_dvd h8 v, ?_⟩⟩
    obtain ⟨rs', v', hrun', hv, h'', hdoes⟩ := ht'.session hn' hst hclear hasked
    obtain ⟨rfl, rfl⟩ := Prod.mk.inj (Option.some.inj (hrun.symm.trans hrun'))
    obtain ⟨hback, hsame⟩ : ∃ h' : TreeOk a v, treeOf h' = treeOf h'' := h''.reopen a.junk a.uid a.gid
    refine ih hback (hv.reopen a.junk a.uid a.gid) ?_ ?_
    · rw [hsame]
      exact (hkept rs v hrun h'').reopen a.junk a.uid a.gid
    · rw [hsame]
      exact hrest rs _ hdoes

end Run

/-- **Whatever fits on a formatted device is served.** If the calls of all sessions fit on the tree that begins
with nothing but its root, they are answered as on that tree, and the device ends up holding the tree that is
left: no state of the driver has to be looked at. -/
theorem serves_fitting {a : Args} {secSz secCnt : UInt32} {now : UInt64} {label : Fin 255 → UInt8} {d : Dev}
    (h : Formats a secSz secCnt now label d) (hn : Numbered a) (h8 : 8 ∣ a.cluCnt) (junk : Buf) (w : ℕ) :
    ∃ d', fmtrMain a.ciph junk secSz secCnt now label d = some d' ∧ ∀ xs, FittingIn a w noFiles xs →
      ∃ rss d'' t, sessions a.ciph secSz.toNat xs d' = some (rss, d'') ∧ DoesSessions a noFiles xs rss t ∧
        Holds a d'' t := by
  obtain ⟨d', hmain⟩ := h.completes junk
  have hform := h.formatted hmain
  refine ⟨d', hmain, fun xs hxs => ?_⟩
  rw [← hform.treeOf_eq] at hxs
  have hserved := FittingIn.servedIn hn h.regions h8 xs hform.treeOk (h.synced hmain) (hform.keepsTo _) hxs
  rw [← h.sector_eq]
  exact Holds.sessions hn h.regions xs (holds_formatted h hmain) hserved

/-! ### A device of zeros -/

section Samples
variable {a : Args} {w : ℕ} {u v : FsTree} {r : Reply} {n : List UInt8} {x : FsNode}

/-- **One file in the root** has room, if it has few blocks. -/
theorem Roomy.of_one (hu : ∀ ns y, u.find ns = some y → ns = [] ∧ y = rootNode ∨ ns = [n] ∧ y = x)
    (hL : 1024 ≤ a.lblkSz) (htbl : 2 ≤ a.fsHead.tblCnt.toNat) (hid : x.id = 1)
    (hfile : ∃ c, x.body = some c ∧ c.length + 4 < 2 ^ 31) (hfew : blocksOf a w x ≤ 13)
    (hroom : blocksOf a w x ≤ 7 * (a.cluCnt - 1)) : Roomy a w u := by
  obtain ⟨c, hc, hlen⟩ := hfile
  have hle : ∀ f ∈ fromOne tableLen, allotted a w u f ≤ if f = 1 then blocksOf a w x else 0 := by
    intro f hf
    obtain ⟨h1, -⟩ := mem_fromOne.mp hf
    by_cases hx : ∃ ns y, u.find ns = some y ∧ y.id = f
    · obtain ⟨ns, y, hy, rfl⟩ := hx
      rw [allotted_find hy]
      rcases hu ns y hy with ⟨-, rfl⟩ | ⟨-, rfl⟩
      · exact absurd h1 (by decide)
      · rw [if_pos hid]
    · rw [allotted_none fun ns y hy heq => hx ⟨ns, y, hy, heq⟩]
      exact Nat.zero_le _
  refine ⟨fun ns y hy => ?_, fun ns hd => ?_, fun ns y c' hy hbody => ?_, fun ns y hne hy => ?_, Or.inl ⟨?_, ?_⟩⟩
  · rcases hu ns y hy with ⟨-, rfl⟩ | ⟨-, rfl⟩
    · show (0 : ℤ) < _
      omega
    · rw [hid]
      omega
  · obtain ⟨y, hy, hbody⟩ := hd
    rcases hu ns y hy with ⟨rfl, rfl⟩ | ⟨-, rfl⟩
    · have hsub : u.names [] ⊆ {n} := fun m hm => by
        obtain ⟨z, hz⟩ := Option.ne_none_iff_exists'.mp hm
        rcases hu _ z hz with ⟨hnil, -⟩ | ⟨heq, -⟩
        · exact absurd hnil (List.cons_ne_nil _ _)
        · exact (List.cons.inj heq).1
      have hcard := Set.ncard_le_ncard hsub (Set.finite_singleton n)
      rw [Set.ncard_singleton] at hcard
      rw [if_pos rfl]
      omega
    · rw [hc] at hbody
      cases hbody
  · rcases hu ns y hy with ⟨-, rfl⟩ | ⟨-, rfl⟩
    · cases hbody
    · rw [hc] at hbody
      obtain rfl := Option.some.inj hbody
      exact hlen
  · rcases hu ns y hy with ⟨rfl, -⟩ | ⟨-, rfl⟩
    · exact absurd rfl hne
    · omega
  · refine Finset.eq_empty_of_forall_notMem fun f hf => ?_
    obtain ⟨hrange, hlong⟩ := mem_longOnes.mp hf
    have := hle f (mem_fromOne.mpr hrange)
    split_ifs at this <;> omega
  · refine (Finset.sum_le_sum hle).trans ?_
    rw [Finset.sum_ite_eq']
    split_ifs
    · exact hroom
    · exact Nat.zero_le _

/-- The first file, with what it holds. -/
def firstNode (c : List UInt8) : FsNode := { newNode 1 0 (0o100000 ||| 0) with body := some c }

/-- There is the first file and no other. -/
def Lone (u : FsTree) (c : List UInt8) : Prop :=
  ∀ ns, u.find ns = if ns = [[97]] then some (firstNode c) else noFiles.find ns

theorem Lone.cases {c : List UInt8} (h : Lone u c) {ns : List (List UInt8)} {y : FsNode} (hy : u.find ns = some y) :
    ns = [] ∧ y = rootNode ∨ ns = [[97]] ∧ y = firstNode c := by
  rw [h ns] at hy
  split_ifs at hy with hone
  · exact Or.inr ⟨hone, (Option.some.inj hy).symm⟩
  · by_cases hnil : ns = []
    · rw [hnil] at hy
      exact Or.inl ⟨hnil, (Option.some.inj hy).symm⟩
    · rw [find_noFiles hnil] at hy
      cases hy

theorem Lone.create (h : Does a noFiles (.create 0 (rootName 97) 0) r u) : Lone u [] := by
  have hcomp := components_first
  intro ns
  cases h with
  | @create _ _ D name _ f hpath hfree hf hi =>
    have hone : (1 : ℤ) ∈ unusedIds noFiles := by
      refine ⟨by decide, fun ms y hy heq => ?_⟩
      by_cases hms : ms = []
      · rw [hms] at hy
        obtain rfl := Option.some.inj hy
        exact absurd heq (by decide)
      · rw [find_noFiles hms] at hy
        cases hy
    have hle := hf.2 hone
    have hpos := hf.1.1
    obtain rfl : f = 1 := by omega
    rw [hpath, components_join hfree.head hfree.slash hfree.ne] at hcomp
    rw [FileTree.insert_find, hcomp]
    rfl

theorem Lone.write {c : List UInt8} {data : Buf} {size offset : ℕ} {fh : ℤ} (h : Lone u c)
    (hdo : Does a u (.write (rootName 97) data size offset fh) r v) : Lone v (overwrite c data size offset) := by
  have hx : u.find [[97]] = some (firstNode c) := (h _).trans (if_pos rfl)
  intro ns
  cases hdo with
  | write hy hfile hfh hoff =>
    rw [components_first] at hy ⊢
    obtain rfl := Option.some.inj (hx.symm.trans hy)
    obtain rfl := Option.some.inj hfile
    rw [FileTree.write_find, h ns, hx]
    split_ifs
    · rfl
    · rfl

theorem Lone.roomy {c : List UInt8} (h : ∀ ns y, u.find ns = some y → ns = [] ∧ y = rootNode ∨
    ns = [[97]] ∧ y = firstNode c) (hL : 1024 ≤ a.lblkSz) (htbl : 2 ≤ a.fsHead.tblCnt.toNat) (hclu : 2 ≤ a.cluCnt)
    (hc : c.length + 4 ≤ 1024) : Roomy a 1 u := by
  have hone : blocksOf a 1 (firstNode c) ≤ 1 := (pages_le_iff (by omega)).mpr (by omega)
  exact Roomy.of_one h hL htbl rfl ⟨c, rfl, by omega⟩ (hone.trans (by decide)) (hone.trans (by omega))

theorem fitting_makeAndWrite (hL : 1024 ≤ a.lblkSz) (htbl : 2 ≤ a.fsHead.tblCnt.toNat) (hclu : 2 ≤ a.cluCnt)
    (data : Buf) {size : ℕ} (hsize : size + 4 ≤ 1024) : Fitting a 1 False noFiles (makeAndWrite data size) := by
  have hfree : FreePlace noFiles rootPath [97] :=
    freePlace_noFiles (List.cons_ne_nil _ _) (by decide) (by decide)
  refine ⟨⟨rootPath, [97], rfl, hfree, by decide⟩, False.elim, trivial, fun r u hdo => ?_⟩
  have hu := Lone.create hdo
  refine ⟨Lone.roomy (fun _ _ => hu.cases) hL htbl hclu (by decide), ⟨rfl, firstNode [], [], ?_, rfl, Or.inr rfl,
    Nat.zero_le _⟩, fun _ => id, trivial, fun r v hdo => ?_⟩
  · rw [components_first]
    exact (hu _).trans (if_pos rfl)
  · refine ⟨Lone.roomy (fun _ _ => (hu.write hdo).cases) hL htbl hclu ?_, trivial⟩
    rw [length_overwrite (Nat.zero_le _)]
    show max 0 (0 + size) + 4 ≤ 1024
    omega

theorem fitting_remove {c : List UInt8} (h : Lone u c) (hL : 1024 ≤ a.lblkSz) (htbl : 2 ≤ a.fsHead.tblCnt.toNat)
    (hclu : 2 ≤ a.cluCnt) (hc : c.length + 4 ≤ 1024) : Fitting a 1 False u [.unlink (rootName 97)] := by
  have hx : u.find [[97]] = some (firstNode c) := (h _).trans (if_pos rfl)
  refine ⟨⟨rfl, ?_, Or.inr fun m => ?_⟩, False.elim, fun y hy _ => ?_, fun r v hdo => ⟨?_, trivial⟩⟩
  · rw [components_first, hx]
    exact Option.some_ne_none _
  · rw [components_first]
    exact (h _).trans (if_neg (by simp))
  · rw [components_first, hx] at hy
    obtain rfl := Option.some.inj hy
    exact ((pages_le_iff (by omega)).mpr (show c.length + 4 ≤ 13 * a.lblkSz by omega))
  · refine Lone.roomy (c := c) (fun ns y hy => h.cases ?_) hL htbl hclu hc
    cases hdo with
    | unlink hpath hz =>
      rw [FileTree.erase_find] at hy
      split_ifs at hy
      exact hy
    | unlinkRoot hroot => exact hy

/-- One process makes a file and writes to it, another removes it. -/
def writeAndRemove (data : Buf) (size : ℕ) : List Session :=
  [⟨fun _ => 0, 0, 0, makeAndWrite data size⟩, ⟨fun _ => 255, 1, 1, [.unlink (rootName 97)]⟩]

theorem fittingIn_writeAndRemove (hL : 1024 ≤ a.lblkSz) (htbl : 2 ≤ a.fsHead.tblCnt.toNat) (hclu : 2 ≤ a.cluCnt)
    (data : Buf) {size : ℕ} (hsize : size + 4 ≤ 1024) : FittingIn a 1 noFiles (writeAndRemove data size) := by
  refine ⟨fitting_makeAndWrite (a := remounted a (fun _ => 0) 0 0) hL htbl hclu data hsize, fun rs v hall => ?_⟩
  cases hall with
  | cons hmake hall =>
    cases hall with
    | cons hwrite hall =>
      cases hall
      have hv := (Lone.create hmake).write hwrite
      refine ⟨fitting_remove (a := remounted a (fun _ => 255) 1 1) hv hL htbl hclu ?_, fun _ _ _ => trivial⟩
      rw [length_overwrite (Nat.zero_le _)]
      show max 0 (0 + size) + 4 ≤ 1024
      omega

end Samples

/-- **A file is made, written to, and removed by another process.** -/
theorem serves_fitting_eight : ∃ d rss d' t,
    fmtrMain plainCipher (fun _ => 0) 512 4486 1 (fun _ => 0) (Fmtr.Mounts.blankDev (512 * 4486)) = some d ∧
      sessions plainCipher 512 (writeAndRemove (fun i => UInt8.ofNat i) 1000) d = some (rss, d') ∧
        DoesSessions eightArgs noFiles (writeAndRemove (fun i => UInt8.ofNat i) 1000) rss t ∧
          Holds eightArgs d' t := by
  obtain ⟨d, hmain, hall⟩ := serves_fitting formats_blank numbered_eight (by decide) (fun _ => 0) 1
  have hfit : FittingIn eightArgs 1 noFiles (writeAndRemove (fun i => UInt8.ofNat i) 1000) :=
    fittingIn_writeAndRemove (by decide) (by decide) (by decide) _ (by decide)
  obtain ⟨rss, d', t, hrun, hdoes, hholds⟩ := hall _ hfit
  exact ⟨d, rss, d', t, hmain, hrun, hdoes, hholds⟩

end Fcfs.Vol
