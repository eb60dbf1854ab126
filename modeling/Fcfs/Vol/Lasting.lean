import Fcfs.Vol.LifeCycle

/-! # What lasts

A call changes the tree in one place at most (`Touches`), so what stands anywhere else stays through all calls
and all mounts (`DoesSessions.kept`). A file that is not written to or removed reads the same in any later
process (`untouched_lasts`). -/

namespace Fcfs.Vol

open Lib.Bytes Lib.Walks Lib.Tree Persist Fmtr.Volume

/-- The call changes what stands under the path, if it changes anything that was there. -/
def Touches (ns : List (List UInt8)) : Call → Prop
  | .write path _ _ _ _ => components path = ns
  | .unlink path => components path = ns
  | .rmdir path => components path = ns
  | _ => False

section Kept
variable {a : Args} {ns : List (List UInt8)} {x : FsNode}

/-- **What a call does not touch stays.** -/
theorem Does.kept {t u : FsTree} {c : Call} {r : Reply} (h : Does a t c r u) (hno : ¬ Touches ns c)
    (hx : t.find ns = some x) : u.find ns = some x := by
  have hinsert : ∀ {D : Path} {name : List UInt8} {y : FsNode} {hd hi} (hfree : FreePlace t D name),
      (t.insert (components D) name y hd hfree.free hi).find ns = some x := by
    intro D name y hd hi hfree
    rw [FileTree.insert_find, if_neg, hx]
    rintro rfl
    rw [hfree.free] at hx
    cases hx
  cases h with
  | mkdir hpath hfree hf => exact hinsert hfree
  | create hpath hfree hf => exact hinsert hfree
  | unlink hpath hy =>
    rw [FileTree.erase_find, if_neg fun heq => hno (hpath.trans heq.symm)]
    exact hx
  | rmdir hpath hy =>
    rw [FileTree.erase_find, if_neg fun heq => hno (hpath.trans heq.symm)]
    exact hx
  | write hy hfile hfh hoff =>
    rw [FileTree.write_find, if_neg fun heq => hno heq.symm]
    exact hx
  | _ => exact hx

/-- The induction is on the calls. -/
theorem DoesAll.kept {t u : FsTree} {cs : List Call} {rs : List Reply} (h : DoesAll a t cs rs u)
    (hno : ∀ c ∈ cs, ¬ Touches ns c) (hx : t.find ns = some x) : u.find ns = some x := by
  induction h with
  | nil => exact hx
  | cons hdo _ ih =>
    exact ih (fun c hc => hno c (List.mem_cons_of_mem _ hc)) (hdo.kept (hno _ List.mem_cons_self) hx)

/-- The induction is on the sessions. -/
theorem DoesSessions.kept {t u : FsTree} {xs : List Session} {rss : List (List Reply)}
    (h : DoesSessions a t xs rss u) (hno : ∀ y ∈ xs, ∀ c ∈ y.calls, ¬ Touches ns c)
    (hx : t.find ns = some x) : u.find ns = some x := by
  induction h with
  | nil => exact hx
  | cons hdo _ ih =>
    exact ih (fun y hy => hno y (List.mem_cons_of_mem _ hy)) (hdo.kept (hno _ List.mem_cons_self) hx)

end Kept

section Lasting
variable {a : Args} {s : St} {path : Path} {x : FsNode} {c : List UInt8}

theorem TreeOk.open_read (h : TreeOk a s) (hhead : path.head? = some 47)
    (hx : (treeOf h).find (components path) = some x) (hfile : x.body = some c) (buf : Buf) {size offset : ℕ}
    (hsize : size < 2 ^ 31) (hoff : offset ≤ c.length) :
    ∃ t, replies a [.opn path, .read buf size offset x.id] s = some
      ([.handle 0 x.id, .bytes ((min size (c.length - offset) : ℕ) : ℤ) (copied buf c size offset)], t) := by
  obtain ⟨u, hopn, hcons⟩ := h.opn hhead hx
  obtain ⟨hu, htree⟩ := h.consulted hcons
  rw [← htree] at hx
  obtain ⟨t, hread, -⟩ := hu.read hx hfile hsize hoff buf
  have hrun : Call.run a s (.opn path) = some (.handle 0 x.id, u) := Option.map_eq_some_iff.mpr ⟨_, hopn, rfl⟩
  exact ⟨t, replies_cons hrun (replies_cons (Option.map_eq_some_iff.mpr ⟨_, hread, rfl⟩) (replies_nil a t))⟩

/-- **A file that is not written to or removed reads the same for ever**: after any sessions that leave it
alone, any process that mounts the device opens it under its path, and reads what it held. -/
theorem untouched_lasts (hn : Numbered a) (hr : Regions a.fsHead) {d : Dev} {t : FsTree} (h : Holds a d t)
    {xs : List Session} (hserved : ServedIn a xs d) (hhead : path.head? = some 47)
    (hx : t.find (components path) = some x) (hfile : x.body = some c)
    (hno : ∀ y ∈ xs, ∀ k ∈ y.calls, ¬ Touches (components path) k) :
    ∃ rss d', sessions a.ciph a.fsHead.phyBlkSz.toNat xs d = some (rss, d') ∧
      ∀ (junk : Buf) (uid gid : UInt32) (buf : Buf) (size offset : ℕ), size < 2 ^ 31 → offset ≤ c.length →
        ∃ s s', opsInit a.ciph junk uid gid a.fsHead.phyBlkSz.toNat d' = some (remounted a junk uid gid, s) ∧
          replies (remounted a junk uid gid) [.opn path, .read buf size offset x.id] s = some
            ([.handle 0 x.id, .bytes ((min size (c.length - offset) : ℕ) : ℤ) (copied buf c size offset)], s') := by
  obtain ⟨rss, d', u, hrun, hdoes, v, hv, rfl, hs, htail, rfl⟩ := Holds.sessions hn hr xs h hserved
  have hkept := hdoes.kept hno hx
  refine ⟨rss, v.dev, hrun, fun junk uid gid buf size offset hsize hoff => ?_⟩
  obtain ⟨s, hop, -, -, h', htree⟩ := hv.remount junk uid gid hs hr htail
  rw [← htree] at hkept
  obtain ⟨s', hread⟩ := h'.open_read hhead hkept hfile buf hsize hoff
  exact ⟨s, s', hop, hread⟩

end Lasting

/-! ### A device of zeros -/

/-- A file is made and written to. -/
def makeAndWrite (data : Buf) (size : ℕ) : List Call :=
  [.create 0 (rootName 97) 0, .write (rootName 97) data size 0 1]

section Samples
variable {a : Args} {s : St}

/-- The first file of a formatted volume can be made and written to. -/
theorem Formatted.asked_write (h : Formatted a s) (hn : Numbered a) (hclu : 3 ≤ a.cluCnt)
    (htbl : 2 ≤ a.fsHead.tblCnt.toNat) (data : Buf) {size : ℕ} (hint : 0 + 4 + size < 2 ^ 31)
    (hspace : writeNeed a size 0 ≤ 7 * (a.cluCnt - 2 : ℕ)) (hcap : writeNeed a size 0 ≤ 12 + secCap a) :
    Asked a False (makeAndWrite data size) s := by
  have hfree : FreePlace noFiles rootPath [97] :=
    freePlace_noFiles (List.cons_ne_nil _ _) (by decide) (by decide)
  have hok : MakeOk a s (joinPath rootPath [97]) := h.makeOk (by omega) htbl (by decide)
  have hnew : NewName a s rootPath [97] 0 := h.newName (List.cons_ne_nil _ _) (by decide) (by decide)
  have hfresh : FreshIn a s (joinPath rootPath [97]) :=
    ⟨h.forgotten htbl, fun st hst => by rw [h.ids] at hst; cases hst⟩
  obtain ⟨s', hop, h', hd, hnone, hi, htree⟩ :=
    h.treeOk.make_tree hn hnew (by decide) hok hfresh (Or.inl ⟨rfl, rfl⟩)
  obtain ⟨u, -, -, hrun, hmade, -⟩ := h.make hn (by omega) htbl
  obtain rfl : u = s' := Option.some.inj (hrun.symm.trans (Option.map_eq_some_iff.mpr ⟨_, hop, rfl⟩))
  refine ⟨fun _ => h.treeOf_eq ▸ ⟨rootPath, [97], rfl, hfree, by decide⟩, hok, False.elim, fun r t hcall => ?_⟩
  obtain ⟨⟨r', t'⟩, hop', heq⟩ := Option.map_eq_some_iff.mp hcall
  obtain ⟨-, rfl⟩ := Prod.mk.inj heq
  obtain ⟨-, rfl⟩ := Prod.mk.inj (Option.some.inj (hop.symm.trans hop'))
  refine ⟨fun _ => ⟨rfl, newNode 1 0 0o100000, [], ?_, rfl, Or.inr rfl, Nat.zero_le _⟩,
    hmade.writeOk hint (hmade.fits hclu hspace hcap), fun _ => trivial, fun _ _ _ => trivial⟩
  have heq : [[97]] = components rootPath ++ [[97]] := rfl
  show (treeOf h').find _ = _
  rw [components_first, htree, FileTree.insert_find, if_pos heq, h.freeFid htbl]
  rfl

theorem Does.created {T u : FsTree} {now : UInt64} {path : Path} {mode : UInt32} {r : Reply}
    (h : Does a T (.create now path mode) r u) :
    ∃ f, u.find (components path) = some (newNode f now (0o100000 ||| mode)) := by
  cases h with
  | @create _ _ D name _ f hpath hfree hf =>
    refine ⟨f, ?_⟩
    rw [hpath, components_join hfree.head hfree.slash hfree.ne, FileTree.insert_find, if_pos rfl]

theorem Does.written {T u : FsTree} {path : Path} {data : Buf} {size offset : ℕ} {fh : ℤ} {r : Reply}
    (h : Does a T (.write path data size offset fh) r u) : ∃ x c, T.find (components path) = some x ∧
      x.body = some c ∧ u.find (components path) = some { x with body := some (overwrite c data size offset) } := by
  cases h with
  | write hx hfile hfh hoff =>
    refine ⟨_, _, hx, hfile, ?_⟩
    rw [FileTree.write_find, if_pos rfl, hx, Option.map_some, hfile, Option.map_some]

/-- **What the device holds then.** -/
theorem Formatted.holds_write (h : Formatted a s) (hs : Synced a s) (hn : Numbered a) (hclu : 3 ≤ a.cluCnt)
    (htbl : 2 ≤ a.fsHead.tblCnt.toNat) (htail : ∀ t, TailClear a t) (data : Buf) {size : ℕ}
    (hint : 0 + 4 + size < 2 ^ 31) (hspace : writeNeed a size 0 ≤ 7 * (a.cluCnt - 2 : ℕ))
    (hcap : writeNeed a size 0 ≤ 12 + secCap a) :
    ∃ rs t T x, replies a (makeAndWrite data size) s = some (rs, t) ∧ Holds a t.dev T ∧
      T.find [[97]] = some x ∧ x.body = some (overwrite [] data size 0) := by
  obtain ⟨rs, t, hrun, ht, h', hdoes⟩ :=
    h.treeOk.session hn hs h.clear (h.asked_write hn hclu htbl data hint hspace hcap)
  refine ⟨rs, t, treeOf h', ?_⟩
  have hholds : Holds a t.dev (treeOf h') := ⟨t, h', rfl, ht, htail t, rfl⟩
  generalize treeOf h' = T at hdoes hholds
  cases hdoes with
  | cons hmake hall =>
    cases hall with
    | cons hwrite hall =>
      cases hall
      obtain ⟨f, hmade⟩ := hmake.created
      obtain ⟨x, c, hx, hfile, hwritten⟩ := hwrite.written
      obtain rfl := Option.some.inj (hmade.symm.trans hx)
      obtain rfl := Option.some.inj hfile
      rw [components_first] at hwritten
      exact ⟨_, hrun, hholds, hwritten, rfl⟩

end Samples

/-- One process lists the root. -/
def listRoot : List Session := [⟨fun _ => 255, 1, 1, [.readdir rootPath]⟩]

theorem Holds.servedIn_listRoot {d : Dev} {T : FsTree} (h : Holds eightArgs d T) : ServedIn eightArgs listRoot d := by
  obtain ⟨s, h, rfl, hs, htail, rfl⟩ := h
  obtain ⟨t, hop, -, -, -⟩ := h.remount (fun _ => 255) 1 1 hs formats_blank.regions htail
  intro b u hop'
  obtain ⟨rfl, rfl⟩ := Prod.mk.inj (Option.some.inj (hop.symm.trans hop'))
  exact ⟨⟨fun h => ⟨rfl, (treeOf h).root⟩, trivial, False.elim, fun _ _ _ => trivial⟩,
    fun _ v _ => ⟨tailClear_eight _ _ _ v, trivial⟩⟩

/-- A file is made and written to, one process lists the root, and another reads the file. -/
theorem untouched_lasts_eight : ∃ d rs t rss d' f s s',
    fmtrMain plainCipher (fun _ => 0) 512 4486 1 (fun _ => 0) (Fmtr.Mounts.blankDev (512 * 4486)) = some d ∧
      replies eightArgs (makeAndWrite (fun i => UInt8.ofNat (104 + i)) 2) (formattedSt d 1) = some (rs, t) ∧
        sessions plainCipher 512 listRoot t.dev = some (rss, d') ∧
          opsInit plainCipher (fun _ => 7) 2 2 512 d' = some (remounted eightArgs (fun _ => 7) 2 2, s) ∧
            replies (remounted eightArgs (fun _ => 7) 2 2) [.opn (rootName 97), .read (fun _ => 0) 2 0 f] s = some
              ([.handle 0 f, .bytes 2 (copied (fun _ => 0) [104, 105] 2 0)], s') := by
  obtain ⟨d, hmain⟩ := formats_blank.completes fun _ => 0
  obtain ⟨rs, t, T, x, hrun, hholds, hx, hfile⟩ := (formats_blank.formatted hmain).holds_write
    (formats_blank.synced hmain) numbered_eight (by decide) (by decide) (tailClear_eight (fun _ => 0) 0 0)
    (fun i => UInt8.ofNat (104 + i)) (show 0 + 4 + 2 < 2 ^ 31 by decide) (by decide) (by decide)
  have hno : ∀ y ∈ listRoot, ∀ k ∈ y.calls, ¬ Touches (components (rootName 97)) k := by
    intro y hy k hk
    obtain rfl := List.mem_singleton.mp hy
    obtain rfl := List.mem_singleton.mp hk
    exact id
  obtain ⟨rss, d', hsess, hread⟩ := untouched_lasts numbered_eight formats_blank.regions hholds
    hholds.servedIn_listRoot (show (rootName 97).head? = some 47 from rfl) (components_first ▸ hx) hfile hno
  obtain ⟨s, s', hop, hreply⟩ := hread (fun _ => 7) 2 2 (fun _ => 0) 2 0 (by decide) (Nat.zero_le _)
  exact ⟨d, rs, t, rss, d', x.id, s, s', hmain, hrun, hsess, hop, hreply⟩

end Fcfs.Vol
