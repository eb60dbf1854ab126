import Fcfs.Vol.Lasting

/-! # A file on its own

The calls on one file may be mixed with any others. What they are answered is what a single file answers that
knows of nothing else (`fileRun`): fed with these calls only, in their order, it gives the same replies and ends
up with the same bytes (`file_alone`). So calls on other files, before, between and behind them, have no effect
on them, as long as the file is not removed. -/

namespace Fcfs.Vol

open Lib.Bytes Lib.Walks Lib.Tree Persist Fmtr.Volume

/-! ### One file -/

/-- The call is on the file with the identifier, or under its path. -/
def Concerns (ns : List (List UInt8)) (f : ℤ) : Call → Prop
  | .getattr _ path => components path = ns
  | .opn path => components path = ns
  | .opendir path => components path = ns
  | .read _ _ _ fh => fh = f
  | .write path _ _ _ _ => components path = ns
  | _ => False

instance (ns : List (List UInt8)) (f : ℤ) : DecidablePred (Concerns ns f) := fun k => by
  cases k <;> unfold Concerns <;> infer_instance

/-- The call removes what stands under the path. -/
def TakesAway (ns : List (List UInt8)) : Call → Prop
  | .unlink path => components path = ns
  | .rmdir path => components path = ns
  | _ => False

/-- What a file answers that holds the bytes `c`. -/
def fileReply (a : Args) (f : ℤ) (m : Attr) (c : List UInt8) : Call → Reply
  | .getattr now _ => .stat 0 (statOf a now ⟨f, m, some c⟩ c.length)
  | .read buf size offset _ => .bytes ((min size (c.length - offset) : ℕ) : ℤ) (copied buf c size offset)
  | .write _ _ size _ _ => .handle (size : ℤ) f
  | _ => .handle 0 f

/-- What it holds then. -/
def fileAfter (c : List UInt8) : Call → List UInt8
  | .write _ data size offset _ => overwrite c data size offset
  | _ => c

/-- **A file on its own**: what it answers to calls one after the other, and what it holds at the end. -/
def fileRun (a : Args) (f : ℤ) (m : Attr) : List Call → List UInt8 → List Reply × List UInt8
  | [], c => ([], c)
  | k :: ks, c => (fileReply a f m c k :: (fileRun a f m ks (fileAfter c k)).1, (fileRun a f m ks (fileAfter c k)).2)

/-- The replies to the calls on the file. -/
def repliesOn (ns : List (List UInt8)) (f : ℤ) (ks : List Call) (rs : List Reply) : List Reply :=
  ((ks.zip rs).filter fun p => Concerns ns f p.1).map Prod.snd

section Alone
variable {a : Args} {t u : FsTree} {ns : List (List UInt8)} {f : ℤ} {m : Attr} {c : List UInt8} {k : Call}
  {r : Reply} {ks : List Call} {rs : List Reply}

/-- **A call on the file** is answered as by the file on its own. -/
theorem Does.concerned (h : Does a t k r u) (hk : Concerns ns f k) (hx : t.find ns = some ⟨f, m, some c⟩) :
    r = fileReply a f m c k ∧ u.find ns = some ⟨f, m, some (fileAfter c k)⟩ := by
  cases h with
  | getattr hy hsize =>
    obtain rfl : _ = ns := hk
    obtain rfl := Option.some.inj (hx.symm.trans hy)
    obtain rfl := hsize
    exact ⟨rfl, hx⟩
  | missing hpath hfree =>
    obtain rfl : _ = ns := hk
    rw [hpath, components_join hfree.head hfree.slash hfree.ne, hfree.free] at hx
    cases hx
  | opn hy =>
    obtain rfl : _ = ns := hk
    obtain rfl := Option.some.inj (hx.symm.trans hy)
    exact ⟨rfl, hx⟩
  | opendir hy =>
    obtain rfl : _ = ns := hk
    obtain rfl := Option.some.inj (hx.symm.trans hy)
    exact ⟨rfl, hx⟩
  | read hy hid hfile hoff =>
    obtain rfl : _ = f := hk
    obtain rfl := t.inj _ _ _ _ hy hx hid
    obtain rfl := Option.some.inj (hx.symm.trans hy)
    obtain rfl := Option.some.inj hfile
    exact ⟨rfl, hx⟩
  | write hy hfile hfh hoff =>
    obtain rfl : _ = ns := hk
    obtain rfl := Option.some.inj (hx.symm.trans hy)
    obtain rfl := Option.some.inj hfile
    refine ⟨rfl, ?_⟩
    rw [FileTree.write_find, if_pos rfl, hx]
    rfl
  | _ => exact hk.elim

/-- **Any other call** leaves the file alone, if it does not remove it. -/
theorem Does.unconcerned (h : Does a t k r u) (hk : ¬ Concerns ns f k) (hno : ¬ TakesAway ns k)
    (hx : t.find ns = some ⟨f, m, some c⟩) : u.find ns = some ⟨f, m, some c⟩ := by
  refine h.kept (fun htouch => ?_) hx
  cases k with
  | write => exact hk htouch
  | unlink => exact hno htouch
  | rmdir => exact hno htouch
  | _ => exact htouch

/-- The induction is on the calls. -/
theorem DoesAll.alone (h : DoesAll a t ks rs u) (hno : ∀ k ∈ ks, ¬ TakesAway ns k)
    (hx : t.find ns = some ⟨f, m, some c⟩) :
    repliesOn ns f ks rs = (fileRun a f m (ks.filter fun k => Concerns ns f k) c).1 ∧
      u.find ns = some ⟨f, m, some (fileRun a f m (ks.filter fun k => Concerns ns f k) c).2⟩ := by
  induction h generalizing c with
  | nil => exact ⟨rfl, hx⟩
  | @cons t u v k r ks rs hdo hall ih =>
    have hrest : ∀ k ∈ ks, ¬ TakesAway ns k := fun k hk => hno k (List.mem_cons_of_mem _ hk)
    unfold repliesOn
    rw [List.zip_cons_cons]
    by_cases hk : Concerns ns f k
    · obtain ⟨rfl, hu⟩ := hdo.concerned hk hx
      obtain ⟨hreplies, hend⟩ := ih hrest hu
      rw [List.filter_cons, List.filter_cons, if_pos (decide_eq_true hk), if_pos (decide_eq_true hk), List.map_cons]
      exact ⟨congrArg _ hreplies, hend⟩
    · have hu := hdo.unconcerned hk (hno _ List.mem_cons_self) hx
      have hneg : ¬ decide (Concerns ns f k) = true := fun htrue => hk (of_decide_eq_true htrue)
      rw [List.filter_cons, List.filter_cons, if_neg hneg, if_neg hneg]
      exact ih hrest hu

end Alone

/-- **A file is served as if there were no other.** In any run of calls on a volume in order, however the calls
on a file are mixed with others, their replies and the bytes that are left are those of the file on its own. -/
theorem file_alone {a : Args} {s : St} (h : TreeOk a s) (hn : Numbered a) {ks : List Call} (hks : Served a ks s)
    {ns : List (List UInt8)} {f : ℤ} {m : Attr} {c : List UInt8}
    (hx : (treeOf h).find ns = some ⟨f, m, some c⟩) (hno : ∀ k ∈ ks, ¬ TakesAway ns k) :
    ∃ rs s', replies a ks s = some (rs, s') ∧
      repliesOn ns f ks rs = (fileRun a f m (ks.filter fun k => Concerns ns f k) c).1 ∧
        ∃ h' : TreeOk a s', (treeOf h').find ns =
          some ⟨f, m, some (fileRun a f m (ks.filter fun k => Concerns ns f k) c).2⟩ := by
  obtain ⟨rs, s', hrun, h', hdoes⟩ := h.calls hn ks hks
  obtain ⟨hreplies, hend⟩ := hdoes.alone hno hx
  exact ⟨rs, s', hrun, hreplies, h', hend⟩

/-! ### A device of zeros -/

/-- Calls that only look and make sense for the tree are served. The induction is on the calls. -/
theorem TreeOk.served_looks {a : Args} (hn : Numbered a) : ∀ (ks : List Call) {s : St} (h : TreeOk a s),
    (∀ k ∈ ks, Looks k ∧ Sensible (treeOf h) k) → Served a ks s
  | [], _, _, _ => trivial
  | k :: ks, s, h, hks => by
    obtain ⟨hlook, hask⟩ := hks k List.mem_cons_self
    have hfree : RoomFor a s k ∧ FreshFor a s k := by
      cases k <;> first | exact ⟨trivial, trivial⟩ | exact hlook.elim
    refine ⟨fun _ => hask, hfree.1, hfree.2, fun r t hrun => ?_⟩
    obtain ⟨r', t', hrun', ht, -⟩ := h.call hn k hask hfree.1 hfree.2
    obtain ⟨rfl, rfl⟩ := Prod.mk.inj (Option.some.inj (hrun.symm.trans hrun'))
    refine TreeOk.served_looks hn ks ht fun k' hk' => ?_
    rw [h.treeOf_congr ht (sameVol_call hlook hrun).dev]
    exact hks k' (List.mem_cons_of_mem _ hk')

/-- The root is listed and looked at, while a file is opened and read. -/
def lookAndRead (f : ℤ) : List Call :=
  [.readdir rootPath, .opn (rootName 97), .getattr 0 rootPath, .read (fun _ => 0) 2 0 f]

/-- The replies on the file are its own. -/
theorem file_alone_eight : ∃ s f rs s', replies eightArgs (lookAndRead f) s = some (rs, s') ∧
    repliesOn [[97]] f (lookAndRead f) rs = [.handle 0 f, .bytes 2 (copied (fun _ => 0) [104, 105] 2 0)] := by
  obtain ⟨d, hmain⟩ := formats_blank.completes fun _ => 0
  obtain ⟨rs, t, T, x, -, ⟨s, h, -, -, -, rfl⟩, hx, hfile⟩ := (formats_blank.formatted hmain).holds_write
    (formats_blank.synced hmain) numbered_eight (by decide) (by decide) (tailClear_eight (fun _ => 0) 0 0)
    (fun i => UInt8.ofNat (104 + i)) (show 0 + 4 + 2 < 2 ^ 31 by decide) (by decide) (by decide)
  obtain ⟨f, m, body⟩ := x
  obtain rfl : body = some [104, 105] := hfile
  have hks : ∀ k ∈ lookAndRead f, (Looks k ∧ Sensible (treeOf h) k) ∧ ¬ TakesAway [[97]] k := by
    have hroot : (treeOf h).HasDir (components rootPath) := (treeOf h).root
    have hthere : (treeOf h).find (components (rootName 97)) ≠ none := by
      rw [components_first, hx]
      exact Option.some_ne_none _
    intro k hk
    unfold lookAndRead at hk
    rw [List.mem_cons, List.mem_cons, List.mem_cons, List.mem_singleton] at hk
    rcases hk with rfl | rfl | rfl | rfl
    · exact ⟨⟨trivial, rfl, hroot⟩, id⟩
    · exact ⟨⟨trivial, rfl, hthere⟩, id⟩
    · exact ⟨⟨trivial, Or.inl ⟨rfl, fun hnone => by cases hnone⟩⟩, id⟩
    · exact ⟨⟨trivial, by decide, _, _, _, hx, rfl, rfl, Nat.zero_le _⟩, id⟩
  obtain ⟨rs, s', hrun, hreplies, -⟩ := file_alone h numbered_eight
    (h.served_looks numbered_eight _ fun k hk => (hks k hk).1) hx fun k hk => (hks k hk).2
  refine ⟨s, f, rs, s', hrun, hreplies.trans ?_⟩
  have hfilter : ((lookAndRead f).filter fun k => Concerns [[97]] f k) =
      [.opn (rootName 97), .read (fun _ => 0) 2 0 f] := by
    have hlist : ¬ Concerns [[97]] f (.readdir rootPath) := id
    have hopn : Concerns [[97]] f (.opn (rootName 97)) := components_first
    have hlook : ¬ Concerns [[97]] f (.getattr 0 rootPath) := fun heq => List.cons_ne_nil _ _ heq.symm
    have hread : Concerns [[97]] f (.read (fun _ => 0) 2 0 f) := rfl
    simp [lookAndRead, hlist, hopn, hlook, hread]
  rw [hfilter]
  rfl

end Fcfs.Vol
