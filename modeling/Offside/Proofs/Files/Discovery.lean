import Mathlib.Data.List.Fold
import Mathlib.Data.List.Induction
import Mathlib.Data.List.MinMax
import Mathlib.Data.List.Nodup
import Mathlib.Order.Nat
import Offside.FileTree.Walk
import Offside.Proofs.Files.Resolution

/-!
# The files below a folder

In a tree without links a walk does not fail, and what it finds is told by names: the files at and below a place are
those that names lead to from there, each by one list of names, through folders only.
-/

namespace Offside

namespace FileTree

variable {folder : Location} {tree : FileTree} {node : Node}

/-! ## Children -/

theorem nameIn?_eq_some {location : Location} {name : String} :
    nameIn? folder location = some name ↔ location = folder ++ [name] := by
  unfold nameIn?
  split
  · rename_i last hlast
    obtain ⟨front, rfl⟩ := List.getLast?_eq_some_iff.1 hlast
    simp only [List.dropLast_concat, Option.ite_none_right_eq_some, Option.some.injEq, List.append_singleton_inj]
  · rename_i hnone
    rw [List.getLast?_eq_none_iff] at hnone
    simp [hnone]

theorem mem_children {name : String} : (name, node) ∈ tree.children folder ↔ (folder ++ [name], node) ∈ tree.nodes := by
  simp only [children, List.mem_filterMap, Option.map_eq_some_iff, Prod.mk.injEq]
  constructor
  · rintro ⟨⟨location, other⟩, hmem, found, hfound, rfl, rfl⟩
    rwa [← nameIn?_eq_some.1 hfound]
  · intro hmem
    exact ⟨_, hmem, name, nameIn?_eq_some.2 rfl, rfl, rfl⟩

/-- The names of what is in a folder are different. -/
theorem Sound.nodup_children (h : tree.Sound) (folder : Location) : ((tree.children folder).map Prod.fst).Nodup := by
  have hnames : (tree.children folder).map Prod.fst = (tree.nodes.map Prod.fst).filterMap (nameIn? folder) := by
    rw [children, List.map_filterMap, List.filterMap_map]
    congr 1
    funext entry
    cases hname : nameIn? folder entry.1 <;> simp [hname]
  rw [hnames]
  refine h.nodup.filterMap ?_
  intro location other name hname hother
  rw [Option.mem_def, nameIn?_eq_some] at hname hother
  rw [hname, hother]

/-- Every place on the way to something is a folder. -/
theorem Sound.node?_of_append (h : tree.Sound) {front back : List String} (hback : back ≠ [])
    (hnode : tree.node? (front ++ back) = some node) : tree.node? front = some .folder := by
  induction back using List.reverseRecOn generalizing node with
  | nil => exact absurd rfl hback
  | append_singleton back name ih =>
    have habove := h.node?_dropLast hnode
    rw [← List.append_assoc, List.dropLast_concat] at habove
    by_cases hnil : back = []
    · rwa [hnil, List.append_nil] at habove
    · exact ih hnil habove

/-! ## Walking by names -/

/-- The names that lead from a place to the files at and below it. -/
def namesUnder (tree : FileTree) : Nat → Location → Node → List (List String)
  | _, _, .file _ => [[]]
  | depth + 1, location, .folder =>
    (tree.children location).flatMap fun child =>
      (tree.namesUnder depth (location ++ [child.1]) child.2).map (child.1 :: ·)
  | _, _, _ => []

theorem mapM_eq_ok {ε α β : Type} {f : α → Except ε β} {g : α → β} {as : List α} (h : ∀ a ∈ as, f a = .ok (g a)) :
    as.mapM f = .ok (as.map g) := by
  induction as with
  | nil => rfl
  | cons a as ih =>
    obtain ⟨ha, has⟩ := List.forall_mem_cons.1 h
    rw [List.mapM_cons, ha, ih has]
    rfl

/-- A walk finds the files that names lead to. -/
theorem LinkFree.filesBelow_eq (h : tree.LinkFree) (depth : Nat) (ancestors : List (Path × Location))
    (path : Path) (location : Location) (node : Node) (hnode : ∀ target, node ≠ .link target) :
    tree.filesBelow depth ancestors path location node =
      .ok ((tree.namesUnder depth location node).map path.joinAll) := by
  induction depth generalizing ancestors path location node with
  | zero => cases node <;> simp_all [filesBelow, settle, namesUnder, Path.joinAll, bind, Except.bind, pure, Except.pure]
  | succ depth ih =>
    cases node with
    | file | device => simp_all [filesBelow, settle, namesUnder, Path.joinAll, bind, Except.bind, pure, Except.pure]
    | link target => exact absurd rfl (hnode target)
    | folder =>
      have hchildren : ∀ child ∈ tree.children location,
          tree.filesBelow depth ((path, location) :: ancestors) (path.join child.1) (location ++ [child.1])
            child.2 =
            .ok ((tree.namesUnder depth (location ++ [child.1]) child.2).map (path.join child.1).joinAll) := by
        intro child hchild
        exact ih _ _ _ _ (fun target => h _ (mem_children.1 hchild) target)
      simp only [filesBelow, settle, bind, Except.bind, mapM_eq_ok hchildren]
      rw [namesUnder, List.map_flatMap, List.flatMap_def]
      simp only [List.map_map]
      rfl

/-- The files at a place itself are found without names, those below it behind the name of a child. -/
theorem mem_namesUnder {depth : Nat} {location : Location} {names : List String}
    (h : names ∈ tree.namesUnder depth location node) : (names = [] ∧ ∃ content, node = .file content) ∨
      ∃ outer name inner child, depth = outer + 1 ∧ node = .folder ∧ names = name :: inner ∧
        (location ++ [name], child) ∈ tree.nodes ∧ inner ∈ tree.namesUnder outer (location ++ [name]) child := by
  unfold namesUnder at h
  split at h
  · rename_i content
    exact Or.inl ⟨List.mem_singleton.1 h, content, rfl⟩
  · rename_i outer
    obtain ⟨⟨name, child⟩, hchild, hinner⟩ := List.mem_flatMap.1 h
    obtain ⟨inner, hmem, rfl⟩ := List.mem_map.1 hinner
    exact Or.inr ⟨outer, name, inner, child, rfl, rfl, rfl, mem_children.1 hchild, hmem⟩
  · cases h

theorem length_le_of_mem_namesUnder {depth : Nat} {location : Location} {names : List String}
    (h : names ∈ tree.namesUnder depth location node) : names.length ≤ depth := by
  induction names generalizing depth location node with
  | nil => exact Nat.zero_le _
  | cons name inner ih =>
    obtain ⟨hnil, -⟩ | ⟨outer, _, _, child, rfl, -, hcons, -, hinner⟩ := mem_namesUnder h
    · cases hnil
    · cases hcons
      exact Nat.succ_le_succ (ih hinner)

theorem length_le_depthBound {location : Location} (h : (location, node) ∈ tree.nodes) : location.length ≤ tree.depthBound := by
  have hheight : location.length ≤ tree.height := by
    rw [height, List.foldl_eq_foldr]
    exact List.le_max_of_le (List.mem_map_of_mem h) (Nat.le_refl _)
  exact hheight.trans ((Nat.le_succ _).trans (Nat.le_mul_of_pos_right _ (Nat.succ_pos _)))

section Sound

variable {tree : FileTree} (h : tree.Sound)

include h

/-- What names that are found lead to: a file, through folders. -/
theorem Sound.of_mem_namesUnder {depth : Nat} {location : Location}
    (hnode : tree.node? location = some node) {names : List String}
    (hnames : names ∈ tree.namesUnder depth location node) : (∀ name ∈ names, Path.IsName name) ∧
      (∀ front, front <+: names → front ≠ names → tree.node? (location ++ front) = some .folder) ∧
      ∃ content, tree.node? (location ++ names) = some (.file content) := by
  induction names generalizing depth location node with
  | nil =>
    obtain ⟨-, content, rfl⟩ | ⟨_, _, _, _, _, _, hcons, _⟩ := mem_namesUnder hnames
    · refine ⟨nofun, fun front hfront hne => absurd (List.prefix_nil.1 hfront) hne, content, ?_⟩
      rw [List.append_nil, hnode]
    · cases hcons
  | cons name inner ih =>
    obtain ⟨hnil, -⟩ | ⟨outer, _, _, child, rfl, rfl, hcons, hchild, hinner⟩ := mem_namesUnder hnames
    · cases hnil
    · cases hcons
      have hthere := h.node?_of_mem (by simp) hchild
      obtain ⟨hisName, hfolders, hfile⟩ := ih hthere hinner
      simp only [List.append_assoc, List.singleton_append] at hfolders hfile
      refine ⟨List.forall_mem_cons.2 ⟨h.isName _ hchild name (by simp), hisName⟩, ?_, hfile⟩
      intro front hfront hne
      cases front with
      | nil => rw [List.append_nil, hnode]
      | cons first others =>
        obtain ⟨rfl, hothers⟩ := List.cons_prefix_cons.1 hfront
        exact hfolders others hothers fun heq => hne (by rw [heq])

/-- Every file that is not too deep is found. -/
theorem Sound.mem_namesUnder_of_file {depth : Nat} {location : Location} {names : List String}
    {content : ByteArray} (hnode : tree.node? location = some node)
    (hfile : tree.node? (location ++ names) = some (.file content)) (hdepth : names.length ≤ depth) :
    names ∈ tree.namesUnder depth location node := by
  induction names generalizing depth location node with
  | nil =>
    rw [List.append_nil, hnode] at hfile
    cases hfile
    cases depth <;> exact List.mem_singleton.2 rfl
  | cons name inner ih =>
    have hfolder := h.node?_of_append (List.cons_ne_nil _ _) hfile
    rw [hnode] at hfolder
    cases hfolder
    obtain ⟨outer, rfl⟩ := Nat.exists_eq_add_one.2 (Nat.lt_of_lt_of_le (Nat.succ_pos _) hdepth)
    rw [List.append_cons] at hfile
    obtain ⟨child, hchild⟩ : ∃ child, tree.node? (location ++ [name]) = some child := by
      by_cases hinner : inner = []
      · rw [hinner, List.append_nil] at hfile
        exact ⟨_, hfile⟩
      · exact ⟨_, h.node?_of_append hinner hfile⟩
    have hmem := mem_children.2 (mem_nodes_of_node? (by simp) hchild)
    exact List.mem_flatMap.2 ⟨_, hmem, List.mem_map_of_mem (ih hchild hfile (Nat.le_of_succ_le_succ hdepth))⟩

theorem Sound.nodup_namesUnder (depth : Nat) (location : Location) (node : Node) :
    (tree.namesUnder depth location node).Nodup := by
  induction depth generalizing location node with
  | zero => cases node <;> simp [namesUnder]
  | succ depth ih =>
    cases node with
    | file | link | device => simp [namesUnder]
    | folder =>
      rw [namesUnder, List.nodup_flatMap]
      constructor
      · intro child _
        exact (ih _ _).map (List.cons_injective)
      · refine ((List.pairwise_map.1 (h.nodup_children location))).imp ?_
        intro child other hne names hnames hothers
        obtain ⟨inner, -, rfl⟩ := List.mem_map.1 hnames
        obtain ⟨_, -, heq⟩ := List.mem_map.1 hothers
        exact hne (List.cons.inj heq).1.symm

end Sound

/-! ## Discovery -/

theorem toOption_find (tree : FileTree) (purpose : Purpose) (path : Path) : (tree.find purpose path).toOption =
    (tree.resolve purpose path).toOption.bind fun location => (tree.node? location).map (location, ·) := by
  unfold find
  cases tree.resolve purpose path with
  | error fault => rfl
  | ok location =>
    cases hnode : tree.node? location <;>
      simp [bind, Except.bind, hnode, Except.toOption, throw, throwThe, MonadExceptOf.throw, pure, Except.pure]

theorem of_find {purpose : Purpose} {path : Path} {location : Location}
    (h : tree.find purpose path = .ok (location, node)) :
    (tree.resolve purpose path).toOption = some location ∧ tree.node? location = some node := by
  have hoption := toOption_find tree purpose path
  rw [h] at hoption
  obtain ⟨place, hresolve, hfound⟩ := Option.bind_eq_some_iff.1 hoption.symm
  obtain ⟨_, hnode, heq⟩ := Option.map_eq_some_iff.1 hfound
  cases heq
  exact ⟨hresolve, hnode⟩

theorem find_eq_ok {purpose : Purpose} {path : Path} {location : Location}
    (hresolve : (tree.resolve purpose path).toOption = some location) (hnode : tree.node? location = some node) :
    tree.find purpose path = .ok (location, node) := by
  have hoption := toOption_find tree purpose path
  rw [hresolve, Option.bind_some, hnode] at hoption
  cases hfind : tree.find purpose path <;> simp_all [Except.toOption]

theorem exists_folder {target : Path} (h : tree.isFolder target = true) :
    ∃ folder, (tree.resolve .visit target).toOption = some folder ∧ tree.node? folder = some .folder := by
  unfold isFolder at h
  split at h
  · rename_i folder hfind
    exact ⟨folder, of_find hfind⟩
  · cases h

theorem exists_file {target : Path} (h : tree.isFile target = true) :
    ∃ place content, (tree.resolve .visit target).toOption = some place ∧
      tree.node? place = some (.file content) := by
  unfold isFile at h
  split at h
  · rename_i place content hfind
    exact ⟨place, content, of_find hfind⟩
  · cases h

/-- Without links what is visited is inspected in the same way. -/
theorem Walk.purpose (h : tree.LinkFree) {purpose other : Purpose} (hpurpose : purpose ≠ .create)
    (hother : other ≠ .create) {links : Nat} {place : Location} {steps : List String}
    (hwalk : Walk tree purpose links folder steps place) : Walk tree other links folder steps place := by
  have hcan : ∀ step rest, canStep purpose step rest = canStep other step rest := by simp [canStep, hpurpose, hother]
  induction hwalk with
  | done => exact .done
  | stay hstay _ ih => exact .stay hstay ih
  | up hup _ ih => exact .up hup ih
  | stop hstep hsize hway =>
    refine .stop hstep (by rwa [← hcan]) (Or.inl (hway.resolve_right ?_))
    rintro ⟨-, target, hlink⟩
    exact h.node?_ne_link _ target (Node.way?_eq_link.1 hlink)
  | enter hstep hsize hway _ ih => exact .enter hstep (by rwa [← hcan]) hway ih
  | follow _ _ hway => exact absurd (Node.way?_eq_link.1 hway) (h.node?_ne_link _ _)

theorem LinkFree.toOption_resolve_inspect (h : tree.LinkFree) (path : Path) :
    (tree.resolve .inspect path).toOption = (tree.resolve .visit path).toOption := by
  ext place
  constructor
  · exact fun hplace => toOption_resolve_of_walk hplace rfl fun _ hwalk => hwalk.purpose h (by decide) (by decide)
  · exact fun hplace => toOption_resolve_of_walk hplace rfl fun _ hwalk => hwalk.purpose h (by decide) (by decide)

/-- The files below a folder that have an extension, in order. -/
theorem LinkFree.discover_eq (h : tree.LinkFree) {target : Path}
    (htarget : (tree.resolve .visit target).toOption = some folder) (hfolder : tree.node? folder = some .folder)
    (extension : String) (recursive : Bool) : tree.discover target extension recursive =
      .ok ((((tree.namesUnder (if recursive then tree.depthBound else 1) folder .folder).map target.joinAll).filter
        (·.hasExtension extension)).mergeSort Path.le) := by
  have hfound := find_eq_ok (by rwa [h.toOption_resolve_inspect]) hfolder
  have hbelow := h.filesBelow_eq (if recursive then tree.depthBound else 1) [] target folder .folder nofun
  simp only [discover, hfound, hbelow]
  rfl

end FileTree

end Offside
