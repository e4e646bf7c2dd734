import Mathlib.Logic.Function.Iterate
import Mathlib.Tactic.SplitIfs
import Valgen.Files.Tree
import Valgen.Proofs.Text.Split
/-!
# Proofs.Files.Walks — where paths lead

A path leads from a folder to a place piece by piece (`Place.follow`), as it does in a tree that has the folders on the
way (`Tree.eq_ofPath_of_resolve?`).  What a path does is the same from every folder: it climbs some folders and goes
down some names (`Place.follow_eq`).  Hence it leads from two folders to one place exactly when climbing does, and a
path that is seen from the folder where the program runs means the same from another folder only if that one is left on
the way (`Place.follow_eq_ofPath_iff`).
-/
namespace Valgen
namespace Files

theorem ne_root_of_mem_pieces {path piece : String} (h : piece ∈ pieces path) : piece ≠ "/" := by
  obtain ⟨cs, hcs, rfl⟩ := List.mem_map.1 h
  intro hroot
  have hslash : cs = ['/'] := by rw [← String.toList_ofList (l := cs), hroot]; rfl
  exact Text.not_mem_of_mem_splitAt hcs (hslash ▸ List.mem_singleton.2 rfl)

namespace Place

def step (place : Place) (piece : String) : Place :=
  if isIdle piece then place else if piece = ".." then place.parent else piece :: place

/-- **The place a path leads to from a folder.** -/
def follow (place : Place) (path : String) : Place := (pieces path).foldl step place

/-- **The place of a path**, from the folder where the program runs or from the root. -/
def ofPath (path : String) : Place := (Tree.start path).follow path

end Place

/-- **In a tree a path leads to its place**, if the folders on the way are there. -/
theorem Tree.eq_ofPath_of_resolve? {t : Tree} {path : String} {place : Place} (h : t.resolve? path = some place) :
    place = Place.ofPath path := by
  have hstep : ∀ {here there : Place} {piece : String}, t.step? here piece = some there → there = here.step piece := by
    intro here there piece hsome
    unfold step? at hsome
    unfold Place.step
    split_ifs at hsome ⊢ <;> simp_all
  have hwalk : ∀ (walk : List String) {here : Place}, walk.foldlM (step? t) here = some place →
      place = walk.foldl Place.step here := by
    intro walk
    induction walk with
    | nil =>
      intro here hsome
      exact (Option.some.inj hsome).symm
    | cons piece rest ih =>
      intro here hsome
      rw [List.foldlM_cons] at hsome
      obtain ⟨next, hnext, hrest⟩ := Option.bind_eq_some_iff.1 hsome
      rw [List.foldl_cons, ← hstep hnext]
      exact ih hrest
  unfold resolve? at h
  split_ifs at h
  exact hwalk _ h

/-! ## Trails -/

/-- **What a path does**: it leaves some folders and goes down some names, the last one first. -/
structure Trail where
  climbs : Nat
  names : Place

namespace Trail

/-- **Where a trail leads from a folder.** -/
def ends (t : Trail) (place : Place) : Place := t.names ++ Place.parent^[t.climbs] place

/-- **The names of a trail are those of files and folders.** -/
def Down (t : Trail) : Prop := ∀ name ∈ t.names, name ≠ ".." ∧ name ≠ "/"

def step (t : Trail) (piece : String) : Trail :=
  if isIdle piece then t
  else if piece = ".." then
    match t.names with
    | [] => ⟨t.climbs + 1, []⟩
    | _ :: rest => ⟨t.climbs, rest⟩
  else ⟨t.climbs, piece :: t.names⟩

def ofPath (path : String) : Trail := (pieces path).foldl step ⟨0, []⟩

end Trail

theorem Place.parent_cons {name : String} (h : name ≠ ".." ∧ name ≠ "/") (place : Place) :
    Place.parent (name :: place) = place := by
  unfold Place.parent
  split
  · contradiction
  · rename_i heq
    exact absurd (List.cons.inj heq).1 h.2
  · rename_i heq
    exact absurd (List.cons.inj heq).1 h.1
  · rename_i heq
    exact (List.cons.inj heq).2.symm

namespace Trail

variable {t : Trail} {piece : String}

theorem Down.step (h : t.Down) (hpiece : piece ≠ "/") : (t.step piece).Down := by
  intro name hname
  unfold Trail.step at hname
  split_ifs at hname with hidle hup
  · exact h name hname
  · split at hname
    · exact absurd hname List.not_mem_nil
    · rename_i hnames
      exact h name (hnames ▸ List.mem_cons_of_mem _ hname)
  · rcases List.mem_cons.1 hname with rfl | hname
    · exact ⟨hup, hpiece⟩
    · exact h name hname

/-- **One piece leads on from where the trail ends.** -/
theorem Down.ends_step (h : t.Down) (piece : String) (place : Place) :
    (t.step piece).ends place = (t.ends place).step piece := by
  unfold Trail.step Place.step
  split_ifs with hidle hup
  · rfl
  · obtain ⟨climbs, names⟩ := t
    cases names with
    | nil => exact Function.iterate_succ_apply' _ _ _
    | cons name rest => exact (Place.parent_cons (h name List.mem_cons_self) _).symm
  · rfl

/-- **Pieces lead on from where the trail ends**, and names stay names. -/
theorem Down.ends_foldl : ∀ {walk : List String} {t : Trail}, t.Down → (∀ piece ∈ walk, piece ≠ "/") →
    (walk.foldl Trail.step t).Down ∧
      ∀ place, (walk.foldl Trail.step t).ends place = walk.foldl Place.step (t.ends place)
  | [], _, h, _ => ⟨h, fun _ => rfl⟩
  | piece :: rest, t, h, hwalk => by
    have hnext := h.step (hwalk piece List.mem_cons_self)
    obtain ⟨hdown, hends⟩ := Down.ends_foldl hnext (fun other ho => hwalk other (List.mem_cons_of_mem _ ho))
    refine ⟨hdown, fun place => ?_⟩
    rw [List.foldl_cons, List.foldl_cons, hends, h.ends_step]

theorem down_ofPath (path : String) : (ofPath path).Down :=
  (Down.ends_foldl (fun _ h => absurd h List.not_mem_nil) (fun _ h => ne_root_of_mem_pieces h)).1

end Trail

namespace Place

/-- **A path does the same from every folder.** -/
theorem follow_eq (place : Place) (path : String) : place.follow path = (Trail.ofPath path).ends place :=
  ((Trail.Down.ends_foldl (t := ⟨0, []⟩) (fun _ h => absurd h List.not_mem_nil)
    (fun _ h => ne_root_of_mem_pieces h)).2 place).symm

/-- **Climbing from below a folder**: first the names are left, then the folder. -/
theorem parent_iterate_append : ∀ (n : Nat) {names : Place} (place : Place),
    (∀ name ∈ names, name ≠ ".." ∧ name ≠ "/") →
      parent^[n] (names ++ place) = names.drop n ++ parent^[n - names.length] place
  | 0, _, _, _ => by simp
  | n + 1, [], place, _ => by simp
  | n + 1, name :: names, place, h => by
    rw [Function.iterate_succ_apply, List.cons_append, parent_cons (h name List.mem_cons_self),
      parent_iterate_append n place (fun other ho => h other (List.mem_cons_of_mem _ ho)), List.drop_succ_cons,
      List.length_cons, Nat.add_sub_add_right]

theorem parent_iterate_nil : ∀ n : Nat, parent^[n] [] = List.replicate n ".."
  | 0 => rfl
  | n + 1 => by
    rw [Function.iterate_succ_apply', parent_iterate_nil n]
    cases n <;> rfl

theorem parent_iterate_root : ∀ n : Nat, parent^[n] ["/"] = ["/"]
  | 0 => rfl
  | n + 1 => by rw [Function.iterate_succ_apply, show parent ["/"] = ["/"] from rfl, parent_iterate_root n]

/-! ## Places from the root and from the folder where the program runs -/

/-- **Whether a place is given from the root.** -/
def isRooted (place : Place) : Bool := place.contains "/"

/-- **How many folders above the folder where the program runs a place leads out of.** -/
def climbs (place : Place) : Nat := place.count ".."

/-- **How many names lead down to a place.** -/
def depth (place : Place) : Nat := place.countP (fun name => name != ".." && name != "/")

/-- **A place that some trail leads to**, from the root or from the folder where the program runs. -/
def Led (place : Place) : Prop := ∃ (t : Trail) (rooted : Bool), t.Down ∧ place = t.ends (if rooted then ["/"] else [])

theorem led_ofPath (path : String) : (ofPath path).Led :=
  ⟨Trail.ofPath path, isAbsolute path, Trail.down_ofPath path, follow_eq _ path⟩

theorem Led.parent {place : Place} (h : place.Led) : place.parent.Led := by
  obtain ⟨t, rooted, hdown, rfl⟩ := h
  refine ⟨⟨1 - t.names.length + t.climbs, t.names.drop 1⟩, rooted, fun name hname =>
    hdown name (List.mem_of_mem_drop hname), ?_⟩
  unfold Trail.ends
  rw [Function.iterate_add_apply]
  exact parent_iterate_append 1 _ hdown

theorem measures_of_down {names : Place} (h : ∀ name ∈ names, name ≠ ".." ∧ name ≠ "/") :
    names.isRooted = false ∧ names.climbs = 0 ∧ names.depth = names.length := by
  refine ⟨?_, ?_, ?_⟩
  · have hroot : "/" ∉ names := fun hmem => (h _ hmem).2 rfl
    simpa [isRooted] using hroot
  · exact List.count_eq_zero.2 (fun hmem => (h _ hmem).1 rfl)
  · refine List.countP_eq_length.2 (fun name hname => ?_)
    simp [h name hname]

/-- **The measures of a place that a trail leads to.** -/
theorem measures_ends {t : Trail} (h : t.Down) (rooted : Bool) :
    (t.ends (if rooted then ["/"] else [])).isRooted = rooted ∧
      (t.ends (if rooted then ["/"] else [])).climbs = (if rooted then 0 else t.climbs) ∧
      (t.ends (if rooted then ["/"] else [])).depth = t.names.length := by
  obtain ⟨hrooted, hclimbs, hdepth⟩ := measures_of_down h
  unfold isRooted at hrooted ⊢
  unfold climbs at hclimbs ⊢
  unfold depth at hdepth ⊢
  unfold Trail.ends
  cases rooted with
  | true =>
    simp only [if_true, parent_iterate_root, List.contains_append, List.count_append, List.countP_append, hrooted,
      hclimbs, hdepth]
    exact ⟨rfl, rfl, rfl⟩
  | false =>
    simp only [Bool.false_eq_true, if_false, parent_iterate_nil, List.contains_append, List.count_append,
      List.countP_append, hrooted, hclimbs, hdepth, List.count_replicate_self]
    refine ⟨?_, by omega, ?_⟩
    · simp
    · have hnone : (List.replicate t.climbs "..").countP (fun name => name != ".." && name != "/") = 0 := by
        refine List.countP_eq_zero.2 (fun name hname => ?_)
        rw [List.eq_of_mem_replicate hname]
        decide
      omega

/-- **Climbing from a folder leads to where climbing from the start leads** exactly when both are given from the same
start, the climb leaves the folder, and, below the folder where the program runs, the folder is as far up as down. -/
theorem parent_iterate_eq_iff {folder : Place} (h : folder.Led) (rooted : Bool) (n : Nat) :
    parent^[n] folder = parent^[n] (if rooted then ["/"] else []) ↔
      folder.isRooted = rooted ∧ folder.depth ≤ n ∧ (rooted = false → folder.climbs = folder.depth) := by
  obtain ⟨t, from', hdown, rfl⟩ := h
  obtain ⟨hrooted, hclimbs, hdepth⟩ := measures_ends hdown from'
  have hclimbed := parent_iterate_append n (parent^[t.climbs] (if from' then ["/"] else [])) hdown
  rw [hrooted, hclimbs, hdepth]
  unfold Trail.ends
  rw [hclimbed, ← Function.iterate_add_apply]
  cases from' with
  | true =>
    cases rooted with
    | true => simp [parent_iterate_root]
    | false =>
      -- The place on the left has the root in it, and climbing from below never gets there.
      simp only [if_true, Bool.false_eq_true, if_false, parent_iterate_root, parent_iterate_nil, false_and, iff_false,
        reduceCtorEq]
      intro heq
      have hroot : "/" ∈ List.replicate n ".." := by
        rw [← heq]
        exact List.mem_append_right _ List.mem_cons_self
      exact absurd (List.eq_of_mem_replicate hroot) (by decide)
  | false =>
    cases rooted with
    | true =>
      simp only [if_true, Bool.false_eq_true, if_false, parent_iterate_root, parent_iterate_nil, false_and, iff_false,
        reduceCtorEq]
      intro heq
      have hroot : "/" ∈ t.names.drop n ++ List.replicate (n - t.names.length + t.climbs) ".." := by
        rw [heq]
        exact List.mem_cons_self
      rcases List.mem_append.1 hroot with hname | hup
      · exact (hdown _ (List.mem_of_mem_drop hname)).2 rfl
      · exact absurd (List.eq_of_mem_replicate hup) (by decide)
    | false =>
      -- Both are climbs alone once no name is left, and then their numbers decide.
      simp only [Bool.false_eq_true, if_false, parent_iterate_nil, true_and, forall_const]
      constructor
      · intro heq
        have hlength := congrArg List.length heq
        have hdrop : t.names.drop n = [] := by
          refine List.eq_nil_iff_forall_not_mem.2 (fun name hname => ?_)
          have hmem : name ∈ List.replicate n ".." := heq ▸ List.mem_append_left _ hname
          exact (hdown name (List.mem_of_mem_drop hname)).1 (List.eq_of_mem_replicate hmem)
        rw [List.drop_eq_nil_iff] at hdrop
        simp only [List.length_append, List.length_drop, List.length_replicate] at hlength
        omega
      · rintro ⟨hle, hsame⟩
        rw [List.drop_eq_nil_iff.2 hle, List.nil_append]
        congr 1
        omega

theorem pieces_cons_idle (path : String) : pieces ("./" ++ path) = "." :: pieces path := by
  unfold pieces
  rw [String.toList_append]
  rfl

/-- **A path leads from a folder to its own place** exactly when both are given from the same start, the path leaves the
folder on its way up, and, unless they are given from the root, the folder is as far up as down. -/
theorem follow_eq_ofPath_iff {folder : Place} (h : folder.Led) (path : String) :
    folder.follow ("./" ++ path) = ofPath path ↔
      folder.isRooted = isAbsolute path ∧ folder.depth ≤ (follow [] path).climbs ∧
        (isAbsolute path = false → folder.climbs = folder.depth) := by
  have hdot : folder.follow ("./" ++ path) = folder.follow path := by
    unfold follow
    rw [pieces_cons_idle]
    rfl
  have hclimbs : (follow [] path).climbs = (Trail.ofPath path).climbs := by
    rw [follow_eq]
    exact (measures_ends (Trail.down_ofPath path) false).2.1
  rw [hdot, hclimbs, ← parent_iterate_eq_iff h, ofPath, follow_eq, follow_eq]
  exact List.append_right_inj _

end Place
end Files
end Valgen
