import Offside.Proofs.Files.Paths

/-!
# Where paths lead

The steps of a path are taken one after the other, each from a folder.  Only folders and links lead on, so a path leads
to the same place as long as these stay where they are, whatever files come and go.  A file that is written changes what
stands at one place.  In a tree without links, names joined to the path of a folder lead down from it.
-/

namespace Offside

namespace Node

/-- How a path goes on at a node: into a folder, along a link, or not at all. -/
def way? : Option Node → Option (Option String)
  | some .folder => some none
  | some (.link target) => some (some target)
  | _ => none

/-- The bytes that are read from a node. -/
def content? : Option Node → Option ByteArray
  | some (.file content) => some content
  | some (.device _) => some .empty
  | _ => none

/-- What stands at a place after bytes are written to it, if they can be. -/
def taking (content : ByteArray) : Option Node → Option Node
  | some .folder => none
  | some (.device .null) => some (.device .null)
  | some (.device .full) => if content.isEmpty then some (.device .full) else none
  | _ => some (.file content)

/-- What takes bytes is no folder, and becomes none. -/
theorem way?_of_taking {content : ByteArray} {old : Option Node} {node : Node} (h : taking content old = some node)
    (hlink : ∀ target, old ≠ some (.link target)) : way? old = none ∧ way? (some node) = none := by
  unfold taking at h
  split at h
  · cases h
  · cases h
    exact ⟨rfl, rfl⟩
  · split at h
    · cases h
      exact ⟨rfl, rfl⟩
    · cases h
  · cases h
    refine ⟨?_, rfl⟩
    unfold way?
    split <;> simp_all

theorem way?_eq_folder {node : Option Node} : way? node = some none ↔ node = some .folder := by
  unfold way?
  split <;> simp_all

theorem way?_eq_link {node : Option Node} {target : String} :
    way? node = some (some target) ↔ node = some (.link target) := by
  unfold way?
  split <;> simp_all

end Node

namespace FileTree

variable {tree now : FileTree} {node : Node} {step text last : String} {path : Path} {purpose : Purpose}
  {folder : Location} {rest : List String}

/-! ## What stands where -/

theorem lookup_cons (here other : Location) (node : Node) (nodes : List (Location × Node)) :
    ((here, node) :: nodes).lookup other = if other = here then some node else nodes.lookup other := by
  rw [List.lookup_cons]
  split <;> simp_all

theorem lookup_putNode (location other : Location) (node : Node) (nodes : List (Location × Node)) :
    (putNode location node nodes).lookup other = if other = location then some node else nodes.lookup other := by
  induction nodes with
  | nil => rw [putNode, lookup_cons]
  | cons entry nodes ih =>
    obtain ⟨here, old⟩ := entry
    rw [putNode, lookup_cons]
    split
    · rename_i heq
      rw [lookup_cons, heq]
      split <;> rfl
    · rename_i hne
      rw [lookup_cons, ih]
      split <;> simp_all

/-- The tree afterwards differs from the one before in the node at one place. -/
structure Replaces (before : FileTree) (place : Location) (node : Node) (after : FileTree) : Prop where
  working : after.working = before.working
  node : ∀ location, after.node? location = if location = place then some node else before.node? location

theorem replaces_put (tree : FileTree) {place : Location} (h : place ≠ []) (node : Node) :
    Replaces tree place node (tree.put place node) := by
  constructor
  · rfl
  · intro location
    by_cases hroot : location = []
    · simp [node?, hroot, Ne.symm h]
    · simp [node?, put, hroot, lookup_putNode]

theorem replaces_self {place : Location} (h : tree.node? place = some node) : Replaces tree place node tree := by
  constructor
  · rfl
  · intro location
    split
    · rename_i heq
      rw [heq, h]
    · rfl

/-! ## Steps -/

/-- A step by a name, which leads neither to the folder it starts from nor to the one above. -/
structure IsProper (step : String) : Prop where
  ne_empty : step ≠ ""
  ne_here : step ≠ "."
  ne_parent : step ≠ ".."

theorem IsProper.of_isName {name : String} (h : Path.IsName name) : IsProper name :=
  ⟨h.ne_empty, h.ne_here, h.ne_parent⟩

theorem step_cases (step : String) : (step = "" ∨ step = ".") ∨ step = ".." ∨ IsProper step := by
  by_cases hstay : step = "" ∨ step = "."
  · exact Or.inl hstay
  · obtain ⟨hempty, hhere⟩ := not_or.1 hstay
    by_cases hparent : step = ".."
    · exact Or.inr (Or.inl hparent)
    · exact Or.inr (Or.inr ⟨hempty, hhere, hparent⟩)

/-- A name can be stepped by unless it is too long, or a folder is to be created by a slash behind it. -/
def canStep (purpose : Purpose) (name : String) (rest : List String) : Bool :=
  !(purpose = .create && rest = [""]) && decide (name.utf8ByteSize ≤ nameLimit)

section Steps

variable (tree : FileTree) (purpose : Purpose) (links : Nat) (folder : Location)

theorem resolveSteps_nil : tree.resolveSteps purpose links folder [] = .ok folder := by
  cases links <;> rfl

theorem resolveSteps_stay (h : step = "" ∨ step = ".") (rest : List String) :
    tree.resolveSteps purpose links folder (step :: rest) = tree.resolveSteps purpose links folder rest := by
  cases links <;> exact if_pos (by simpa using h)

theorem resolveSteps_up (rest : List String) : tree.resolveSteps purpose links folder (".." :: rest) =
      tree.resolveSteps purpose links folder.dropLast rest := by
  cases links <;> rw [resolveSteps, advance, if_neg (by decide), if_pos rfl]

/-- Where a link leads, if there are links left to follow. -/
def follow? (target : String) (rest : List String) : Nat → Option Location
  | 0 => none
  | links + 1 =>
    (tree.resolveSteps purpose links (if startsAtRoot target then [] else folder) (steps target ++ rest)).toOption

/-- Where a path goes on at a name depends on the way there. -/
theorem toOption_resolveSteps_name (hstep : IsProper step) (rest : List String) :
    (tree.resolveSteps purpose links folder (step :: rest)).toOption =
      if canStep purpose step rest then
        match Node.way? (tree.node? (folder ++ [step])) with
        | none => if rest = [] then some (folder ++ [step]) else none
        | some none => (tree.resolveSteps purpose links (folder ++ [step]) rest).toOption
        | some (some target) =>
          if rest = [] && purpose = .inspect then some (folder ++ [step])
          else follow? tree purpose folder target rest links
      else none := by
  obtain ⟨jump, hjump, hfollow⟩ : ∃ jump, tree.resolveSteps purpose links = tree.advance jump purpose ∧
      ∀ target rest, (jump folder target rest).toOption = follow? tree purpose folder target rest links := by
    cases links <;> exact ⟨_, rfl, fun _ _ => rfl⟩
  rw [hjump, advance, if_neg (by simp [hstep.ne_empty, hstep.ne_here]), if_neg hstep.ne_parent]
  by_cases hslash : (purpose = .create && rest = [""]) = true
  · rw [if_pos hslash, if_neg (by simp [canStep, hslash])]
    rfl
  rw [if_neg hslash]
  by_cases hsize : nameLimit < step.utf8ByteSize
  · rw [if_pos hsize, if_neg (by simp [canStep, hsize])]
    rfl
  rw [if_neg hsize, if_pos (by simp_all [canStep, imp_iff_not_or])]
  cases hnode : tree.node? (folder ++ [step]) with
  | none => simp only [hnode, Node.way?]; split <;> rfl
  | some node =>
    cases node with
    | link target =>
      simp only [hnode, Node.way?]
      split
      · rfl
      · exact hfollow target rest
    | folder | file | device => simp only [hnode, Node.way?] <;> split <;> rfl

end Steps

/-- The place that steps lead to from a folder, along some of the links that may be followed. -/
inductive Walk (tree : FileTree) (purpose : Purpose) : Nat → Location → List String → Location → Prop
  | done {links : Nat} {folder : Location} : Walk tree purpose links folder [] folder
  | stay {links : Nat} {folder place : Location} {step : String} {rest : List String} (h : step = "" ∨ step = ".")
      (hrest : Walk tree purpose links folder rest place) : Walk tree purpose links folder (step :: rest) place
  | up {links : Nat} {folder place : Location} {step : String} {rest : List String} (h : step = "..")
      (hrest : Walk tree purpose links folder.dropLast rest place) : Walk tree purpose links folder (step :: rest) place
  | stop {links : Nat} {folder : Location} {step : String} (hstep : IsProper step)
      (hcan : canStep purpose step [] = true) (hway : Node.way? (tree.node? (folder ++ [step])) = none ∨
        purpose = .inspect ∧ ∃ target, Node.way? (tree.node? (folder ++ [step])) = some (some target)) :
      Walk tree purpose links folder [step] (folder ++ [step])
  | enter {links : Nat} {folder place : Location} {step : String} {rest : List String} (hstep : IsProper step)
      (hcan : canStep purpose step rest = true) (hway : Node.way? (tree.node? (folder ++ [step])) = some none)
      (hrest : Walk tree purpose links (folder ++ [step]) rest place) :
      Walk tree purpose links folder (step :: rest) place
  | follow {links : Nat} {folder place : Location} {step target : String} {rest : List String}
      (hstep : IsProper step) (hcan : canStep purpose step rest = true)
      (hway : Node.way? (tree.node? (folder ++ [step])) = some (some target))
      (hgoes : ¬(rest = [] ∧ purpose = .inspect))
      (hrest : Walk tree purpose links (if startsAtRoot target then [] else folder) (steps target ++ rest) place) :
      Walk tree purpose (links + 1) folder (step :: rest) place

section Walk

variable {tree : FileTree} {purpose : Purpose} {links : Nat} {folder place : Location} {steps : List String}

/-- The steps of a path make a walk if those behind a link do. -/
theorem walk_of_follow
    (hfollow : ∀ folder target rest place, follow? tree purpose folder target rest links = some place →
      ∃ fewer, links = fewer + 1 ∧
        Walk tree purpose fewer (if startsAtRoot target then [] else folder) (FileTree.steps target ++ rest) place)
    (h : (tree.resolveSteps purpose links folder steps).toOption = some place) :
    Walk tree purpose links folder steps place := by
  induction steps generalizing folder with
  | nil =>
    rw [resolveSteps_nil] at h
    cases h
    exact .done
  | cons step rest ih =>
    rcases step_cases step with hstay | rfl | hstep
    · rw [resolveSteps_stay _ _ _ _ hstay] at h
      exact .stay hstay (ih h)
    · rw [resolveSteps_up] at h
      exact .up rfl (ih h)
    · rw [toOption_resolveSteps_name _ _ _ _ hstep, Option.ite_none_right_eq_some] at h
      obtain ⟨hcan, h⟩ := h
      split at h
      · rename_i hway
        obtain ⟨rfl, hplace⟩ := Option.ite_none_right_eq_some.1 h
        cases hplace
        exact .stop hstep hcan (Or.inl hway)
      · rename_i hway
        exact .enter hstep hcan hway (ih h)
      · rename_i target hway
        split at h
        · rename_i hlast
          obtain ⟨hrest, hpurpose⟩ := Bool.and_eq_true_iff.1 hlast
          cases of_decide_eq_true hrest
          cases h
          exact .stop hstep hcan (Or.inr ⟨of_decide_eq_true hpurpose, target, hway⟩)
        · rename_i hgoes
          obtain ⟨fewer, rfl, hwalk⟩ := hfollow folder target rest place h
          exact .follow hstep hcan hway (by simpa using hgoes) hwalk

theorem walk_iff : (tree.resolveSteps purpose links folder steps).toOption = some place ↔
    Walk tree purpose links folder steps place := by
  constructor
  · intro h
    induction links generalizing folder steps place with
    | zero => exact walk_of_follow (fun _ _ _ _ hnone => by cases hnone) h
    | succ links ih => exact walk_of_follow (fun _ _ _ _ hfollow => ⟨links, rfl, ih hfollow⟩) h
  · intro h
    induction h with
    | done => rw [resolveSteps_nil]; rfl
    | stay hstay _ ih => rw [resolveSteps_stay _ _ _ _ hstay, ih]
    | up hup _ ih => rw [hup, resolveSteps_up, ih]
    | stop hstep hcan hway =>
      rw [toOption_resolveSteps_name _ _ _ _ hstep, if_pos hcan]
      rcases hway with hway | ⟨hpurpose, target, hway⟩
      · rw [hway]
        rfl
      · simp [hway, hpurpose]
    | enter hstep hcan hway _ ih =>
      rw [toOption_resolveSteps_name _ _ _ _ hstep, if_pos hcan, hway]
      exact ih
    | follow hstep hcan hway hgoes _ ih =>
      rw [toOption_resolveSteps_name _ _ _ _ hstep, if_pos hcan, hway]
      simpa [hgoes, follow?] using ih

end Walk

/-! ## Paths that can be followed -/

/-- The bytes of a path are not too many, and none of them is zero. -/
def fits (path : Path) : Bool := !path.text.toList.contains '\x00' && decide (path.text.utf8ByteSize ≤ pathLimit)

theorem toOption_resolve_eq (tree : FileTree) (purpose : Purpose) (h : path.text ≠ "") :
    (tree.resolve purpose path).toOption =
      if fits path then (tree.resolveSteps purpose linkLimit (if startsAtRoot path.text then [] else tree.working)
        (steps path.text)).toOption
      else none := by
  unfold resolve fits
  by_cases hnul : '\x00' ∈ path.text.toList
  · simp [hnul, Except.toOption]
  · by_cases hsize : pathLimit < path.text.utf8ByteSize
    · simp [hnul, h, hsize, Nat.not_le.2 hsize, Except.toOption]
    · simp [hnul, h, hsize, Nat.not_lt.1 hsize]

theorem text_ne_empty_of_resolve {place : Location}
    (h : (tree.resolve purpose path).toOption = some place) : path.text ≠ "" := by
  intro hempty
  simp [resolve, hempty, Except.toOption] at h

/-- A path leads to the same place if its walk does. -/
theorem toOption_resolve_of_walk {other : Purpose} {place : Location}
    (hplace : (tree.resolve purpose path).toOption = some place) (hworking : now.working = tree.working)
    (hwalk : ∀ {folder : Location}, folder = (if startsAtRoot path.text then [] else tree.working) →
      Walk tree purpose linkLimit folder (steps path.text) place →
        Walk now other linkLimit folder (steps path.text) place) :
    (now.resolve other path).toOption = some place := by
  have htext := text_ne_empty_of_resolve hplace
  rw [toOption_resolve_eq tree _ htext, Option.ite_none_right_eq_some, walk_iff] at hplace
  rw [toOption_resolve_eq now _ htext, hworking, Option.ite_none_right_eq_some, walk_iff]
  exact ⟨hplace.1, hwalk rfl hplace.2⟩

/-! ## Trees with the same ways -/

/-- Two trees have the same folders and links. -/
structure SameWays (now tree : FileTree) : Prop where
  working : now.working = tree.working
  way : ∀ location, Node.way? (now.node? location) = Node.way? (tree.node? location)

theorem SameWays.refl (tree : FileTree) : SameWays tree tree := ⟨rfl, fun _ => rfl⟩

/-- The ways stay when what is replaced is neither a folder nor a link. -/
theorem SameWays.replaces {after : FileTree} (h : SameWays now tree) {place : Location}
    (hafter : Replaces now place node after) (hplace : Node.way? (tree.node? place) = none)
    (hnode : Node.way? (some node) = none) : SameWays after tree := by
  constructor
  · rw [hafter.working, h.working]
  · intro location
    rw [hafter.node]
    split
    · rename_i heq
      rw [hnode, heq, hplace]
    · exact h.way location

theorem Walk.same {links : Nat} {place : Location} {steps : List String} (h : Walk now purpose links folder steps place)
    (hways : ∀ location, Node.way? (now.node? location) = Node.way? (tree.node? location)) :
    Walk tree purpose links folder steps place := by
  induction h with
  | done => exact .done
  | stay hstay _ ih => exact .stay hstay ih
  | up hup _ ih => exact .up hup ih
  | stop hstep hcan hway => exact .stop hstep hcan (by rwa [hways] at hway)
  | enter hstep hcan hway _ ih => exact .enter hstep hcan (by rwa [hways] at hway) ih
  | follow hstep hcan hway hgoes _ ih => exact .follow hstep hcan (by rwa [hways] at hway) hgoes ih

theorem SameWays.toOption_resolve (h : SameWays now tree) (purpose : Purpose) (path : Path) :
    (now.resolve purpose path).toOption = (tree.resolve purpose path).toOption := by
  ext place
  constructor
  · exact fun hplace => toOption_resolve_of_walk hplace h.working.symm fun _ hwalk => hwalk.same h.way
  · exact fun hplace => toOption_resolve_of_walk hplace h.working fun _ hwalk =>
      hwalk.same fun location => (h.way location).symm

/-! ## Reading and writing -/

theorem toOption_readBytes (tree : FileTree) (path : Path) : (tree.readBytes path).toOption =
    (tree.resolve .visit path).toOption.bind fun place => Node.content? (tree.node? place) := by
  unfold readBytes find
  cases tree.resolve .visit path with
  | error fault => rfl
  | ok place =>
    cases hnode : tree.node? place with
    | none => simp only [bind, Except.bind, Except.toOption, Option.bind_some, hnode]; rfl
    | some node =>
      cases node <;> simp only [bind, Except.bind, Except.toOption, Option.bind_some, hnode] <;> rfl

theorem toOption_read (tree : FileTree) (path : Path) :
    (tree.read path).toOption = (tree.readBytes path).toOption.bind String.fromUTF8? := by
  unfold read
  cases tree.readBytes path with
  | error fault => rfl
  | ok content =>
    cases htext : String.fromUTF8? content <;> simp only [bind, Except.bind, htext] <;>
      exact htext.symm

/-- Writing replaces the node that the path leads to, if it takes the text. -/
theorem exists_write {place : Location} (hplace : (tree.resolve .create path).toOption = some place)
    (hnode : Node.taking text.toUTF8 (tree.node? place) = some node) :
    ∃ after, tree.write path text = .ok after ∧ Replaces tree place node after := by
  have hresolve : tree.resolve .create path = .ok place := by
    cases hresolve : tree.resolve .create path <;> simp_all [Except.toOption]
  have hroot : place ≠ [] := by
    intro h
    simp [h, node?, Node.taking] at hnode
  rw [write, writeBytes, hresolve]
  simp only [bind, Except.bind]
  cases hold : tree.node? place with
  | none =>
    rw [hold] at hnode
    cases hnode
    exact ⟨_, rfl, replaces_put tree hroot _⟩
  | some old =>
    rw [hold] at hnode
    cases old with
    | folder => cases hnode
    | file content | link target =>
      cases hnode
      exact ⟨_, rfl, replaces_put tree hroot _⟩
    | device kind =>
      cases kind with
      | null =>
        cases hnode
        exact ⟨tree, rfl, replaces_self hold⟩
      | full =>
        simp only [Node.taking] at hnode
        split at hnode
        · rename_i hempty
          cases hnode
          exact ⟨tree, by rw [if_pos hempty]; rfl, replaces_self hold⟩
        · cases hnode

/-- A text that is written nowhere changes nothing. -/
theorem exists_write_error (h : ((tree.resolve .create path).toOption.bind fun place =>
      Node.taking text.toUTF8 (tree.node? place)) = none) : ∃ fault, tree.write path text = .error fault := by
  rw [write, writeBytes]
  cases hresolve : tree.resolve .create path with
  | error fault => exact ⟨fault, rfl⟩
  | ok place =>
    simp only [hresolve, Except.toOption, Option.bind_some] at h
    simp only [bind, Except.bind]
    cases hold : tree.node? place with
    | none => simp [hold, Node.taking] at h
    | some old =>
      rw [hold] at h
      cases old with
      | folder => exact ⟨_, rfl⟩
      | file content | link target => cases h
      | device kind =>
        cases kind with
        | null => cases h
        | full =>
          simp only [Node.taking] at h
          split at h
          · cases h
          · rename_i hempty
            exact ⟨_, by rw [if_neg hempty]; rfl⟩

theorem exists_of_write {after : FileTree} (h : tree.write path text = .ok after) :
    ∃ place node, (tree.resolve .create path).toOption = some place ∧
      Node.taking text.toUTF8 (tree.node? place) = some node ∧ Replaces tree place node after := by
  cases htaken : (tree.resolve .create path).toOption.bind fun place =>
      Node.taking text.toUTF8 (tree.node? place) with
  | none =>
    obtain ⟨fault, hfault⟩ := exists_write_error htaken
    rw [hfault] at h
    cases h
  | some node =>
    obtain ⟨place, hplace, hnode⟩ := Option.bind_eq_some_iff.1 htaken
    obtain ⟨written, hwrite, hreplaces⟩ := exists_write hplace hnode
    rw [hwrite] at h
    cases h
    exact ⟨place, node, hplace, hnode, hreplaces⟩

/-! ## Sound trees -/

/-- A tree as a system has it: each location once, by names, and in a folder. -/
structure Sound (tree : FileTree) : Prop where
  nodup : (tree.nodes.map Prod.fst).Nodup
  isName : ∀ entry ∈ tree.nodes, ∀ name ∈ entry.1, Path.IsName name
  parent : ∀ entry ∈ tree.nodes, tree.node? entry.1.dropLast = some .folder
  working : tree.node? tree.working = some .folder

def LinkFree (tree : FileTree) : Prop := ∀ entry ∈ tree.nodes, ∀ target, entry.2 ≠ .link target

theorem mem_nodes_of_node? {location : Location} (hroot : location ≠ [])
    (h : tree.node? location = some node) : (location, node) ∈ tree.nodes := by
  rw [node?, if_neg hroot] at h
  obtain ⟨front, back, hnodes, -⟩ := List.lookup_eq_some_iff.1 h
  simp [hnodes]

/-- Each entry of a sound tree is what stands at its location. -/
theorem Sound.node?_of_mem (h : tree.Sound) {location : Location}
    (hroot : location ≠ []) (hmem : (location, node) ∈ tree.nodes) : tree.node? location = some node := by
  have hnodup := h.nodup
  obtain ⟨front, back, hnodes⟩ := List.append_of_mem hmem
  rw [node?, if_neg hroot, List.lookup_eq_some_iff]
  refine ⟨front, back, hnodes, fun entry hentry => ?_⟩
  rw [hnodes, List.map_append, List.map_cons, List.nodup_append] at hnodup
  have hne := hnodup.2.2 entry.1 (List.mem_map_of_mem hentry) location List.mem_cons_self
  simpa using Ne.symm hne

theorem Sound.node?_dropLast (h : tree.Sound) {location : Location}
    (hnode : tree.node? location = some node) : tree.node? location.dropLast = some .folder := by
  by_cases hroot : location = []
  · rw [hroot]
    rfl
  · exact h.parent _ (mem_nodes_of_node? hroot hnode)

/-- A text starts at the root or where it stands. -/
theorem node?_start (hfolder : tree.node? folder = some .folder)
    (text : String) : tree.node? (if startsAtRoot text then [] else folder) = some .folder := by
  split
  · rfl
  · exact hfolder

theorem LinkFree.node?_ne_link (h : tree.LinkFree) (location : Location) (target : String) :
    tree.node? location ≠ some (.link target) := by
  intro hnode
  by_cases hroot : location = []
  · simp [hroot, node?] at hnode
  · exact h _ (mem_nodes_of_node? hroot hnode) target rfl

/-! ## Where paths end -/

/-- A path ends at a folder, or at its last step, which is then no slash, at something that leads nowhere. -/
def Ends (tree : FileTree) (steps : List String) (place : Location) : Prop :=
  tree.node? place = some .folder ∨ Node.way? (tree.node? place) = none ∧ steps.getLast? ≠ some ""

theorem Ends.cons {place : Location}
    (h : tree.Ends rest place) (hstep : step ≠ "" ∨ rest ≠ [] ∨ tree.node? place = some .folder) :
    tree.Ends (step :: rest) place := by
  refine h.elim Or.inl fun hhidden => ?_
  cases rest with
  | nil =>
    rcases hstep with hstep | hrest | hfolder
    · exact Or.inr ⟨hhidden.1, by simpa using hstep⟩
    · exact absurd rfl hrest
    · exact Or.inl hfolder
  | cons next others => exact Or.inr ⟨hhidden.1, by simpa using hhidden.2⟩

theorem Ends.of_append {front : List String} {place : Location}
    (h : tree.Ends (front ++ rest) place) : tree.Ends rest place := by
  refine h.imp_right fun hhidden => ⟨hhidden.1, fun hslash => hhidden.2 ?_⟩
  rw [List.getLast?_append, hslash, Option.some_or]

section Sound

variable {tree : FileTree} (h : tree.Sound) {links : Nat} {folder place : Location} {steps : List String}

include h

theorem Walk.ends (hwalk : Walk tree purpose links folder steps place)
    (hpurpose : purpose ≠ .inspect) (hfolder : tree.node? folder = some .folder) : tree.Ends steps place := by
  induction hwalk with
  | done => exact Or.inl hfolder
  | @stay _ _ _ _ rest hstay hrest ih =>
    refine (ih hfolder).cons ?_
    cases hrest with
    | done => exact Or.inr (Or.inr hfolder)
    | _ => exact Or.inr (Or.inl nofun)
  | up hup _ ih => exact (ih (h.node?_dropLast hfolder)).cons (Or.inl (by rw [hup]; decide))
  | stop hstep _ hway =>
    exact Or.inr ⟨hway.resolve_right fun hinspect => hpurpose hinspect.1, by simpa using hstep.ne_empty⟩
  | enter hstep _ hway _ ih => exact (ih (Node.way?_eq_folder.1 hway)).cons (Or.inl hstep.ne_empty)
  | @follow _ _ _ _ target _ hstep _ _ _ _ ih =>
    exact (ih (node?_start hfolder target)).of_append.cons (Or.inl hstep.ne_empty)

theorem Sound.ends_resolve (hpurpose : purpose ≠ .inspect)
    (hplace : (tree.resolve purpose path).toOption = some place) : tree.Ends (FileTree.steps path.text) place := by
  rw [toOption_resolve_eq tree purpose (text_ne_empty_of_resolve hplace), Option.ite_none_right_eq_some,
    walk_iff] at hplace
  exact hplace.2.ends h hpurpose (node?_start h.working path.text)

omit h in
/-- A slash behind a name leads into a folder, which cannot be created. -/
theorem canStep_create (hcan : canStep .visit step rest = true)
    (hends : tree.Ends rest place) (hnode : tree.node? place ≠ some .folder) : canStep .create step rest = true := by
  have hrest : rest ≠ [""] := by
    rintro rfl
    exact (hends.resolve_left hnode).2 rfl
  simpa [canStep, hrest] using hcan

theorem Walk.create (hwalk : Walk tree .visit links folder steps place)
    (hfolder : tree.node? folder = some .folder) (hnode : tree.node? place ≠ some .folder) :
    Walk tree .create links folder steps place := by
  induction hwalk with
  | done => exact .done
  | stay hstay _ ih => exact .stay hstay (ih hfolder hnode)
  | up hup _ ih => exact .up hup (ih (h.node?_dropLast hfolder) hnode)
  | stop hstep hcan hway => exact .stop hstep hcan (Or.inl (hway.resolve_right nofun))
  | enter hstep hcan hway hrest ih =>
    have hinner := Node.way?_eq_folder.1 hway
    exact .enter hstep (canStep_create hcan (hrest.ends h nofun hinner) hnode) hway (ih hinner hnode)
  | @follow _ _ _ _ target _ hstep hcan hway _ hrest ih =>
    have hstart := node?_start hfolder target
    exact .follow hstep (canStep_create hcan (hrest.ends h nofun hstart).of_append hnode) hway nofun (ih hstart hnode)

/-- What can be visited and is no folder can be written to. -/
theorem Sound.toOption_resolve_create (hplace : (tree.resolve .visit path).toOption = some place)
    (hnode : tree.node? place ≠ some .folder) : (tree.resolve .create path).toOption = some place := by
  refine toOption_resolve_of_walk hplace rfl fun hstart hwalk => hwalk.create h ?_ hnode
  rw [hstart]
  exact node?_start h.working path.text

end Sound

/-! ## Trees without links -/

section LinkFree

variable {tree : FileTree} (hlinks : tree.LinkFree) {purpose : Purpose} {links : Nat}

theorem toOption_resolveSteps_folders {names : List String} (hnames : ∀ name ∈ names, Path.IsName name)
    (hfolders : ∀ front, front <+: names → tree.node? (folder ++ front) = some .folder) {back : List String}
    (hback : back ≠ [""]) : (tree.resolveSteps purpose links folder (names ++ back)).toOption =
      if names.all (·.utf8ByteSize ≤ nameLimit) then
        (tree.resolveSteps purpose links (folder ++ names) back).toOption
      else none := by
  induction names generalizing folder with
  | nil => simp
  | cons name names ih =>
    obtain ⟨hname, hrest⟩ := List.forall_mem_cons.1 hnames
    have hfolder : tree.node? (folder ++ [name]) = some .folder := hfolders [name] (by simp)
    have hbehind : names ++ back ≠ [""] := by
      cases names with
      | nil => simpa using hback
      | cons next others =>
        have hnext := (hrest next List.mem_cons_self).ne_empty
        simp [hnext]
    have hinner : ∀ front, front <+: names → tree.node? (folder ++ [name] ++ front) = some .folder := by
      intro front hfront
      rw [List.append_assoc]
      exact hfolders (name :: front) (List.cons_prefix_cons.2 ⟨rfl, hfront⟩)
    rw [List.cons_append, toOption_resolveSteps_name _ _ _ _ (.of_isName hname), hfolder]
    simp only [Node.way?, ih hrest hinner]
    by_cases hsize : name.utf8ByteSize ≤ nameLimit <;> simp [canStep, hbehind, hsize]

include hlinks

/-- The last name of a path may be that of anything, or of nothing. -/
theorem toOption_resolveSteps_last {name : String} (hname : Path.IsName name) :
    (tree.resolveSteps purpose links folder [name]).toOption =
      if name.utf8ByteSize ≤ nameLimit then some (folder ++ [name]) else none := by
  rw [toOption_resolveSteps_name _ _ _ _ (.of_isName hname)]
  have hlink := hlinks.node?_ne_link (folder ++ [name])
  cases hnode : tree.node? (folder ++ [name]) with
  | none => simp [canStep, Node.way?]
  | some node =>
    cases node with
    | link target => exact absurd hnode (hlink target)
    | folder | file | device => simp [canStep, Node.way?, resolveSteps_nil, Except.toOption]

/-- A path to a folder can be gone on from there. -/
theorem toOption_resolveSteps_append {start : Location} {front tail back : List String} (hfront : "" ∉ front)
    (htail : tail = [] ∨ tail = [""])
    (h : (tree.resolveSteps .visit links start (front ++ tail)).toOption = some folder)
    (hfolder : tree.node? folder = some .folder) (hempty : back ≠ []) (hslash : back ≠ [""]) :
    (tree.resolveSteps purpose links start (front ++ back)).toOption =
      (tree.resolveSteps purpose links folder back).toOption := by
  induction front generalizing start with
  | nil =>
    have hstart : start = folder := by
      rcases htail with rfl | rfl
      · simpa [resolveSteps_nil, Except.toOption] using h
      · simpa [resolveSteps_stay, resolveSteps_nil, Except.toOption] using h
    rw [List.nil_append, hstart]
  | cons step front ih =>
    obtain ⟨hstep, hrest⟩ := not_or.1 (List.mem_cons.not.1 hfront)
    have hbehind : front ++ back ≠ [""] := by
      cases front with
      | nil => exact hslash
      | cons next others => simp [hempty]
    rw [List.cons_append] at h ⊢
    rcases step_cases step with hstay | rfl | hproper
    · rw [resolveSteps_stay _ _ _ _ hstay] at h ⊢
      exact ih hrest h
    · rw [resolveSteps_up] at h ⊢
      exact ih hrest h
    · rw [toOption_resolveSteps_name _ _ _ _ hproper] at h ⊢
      rw [Option.ite_none_right_eq_some] at h
      have hcan : canStep purpose step (front ++ back) = true := by simpa [canStep, hbehind] using h.1
      rw [if_pos hcan]
      cases hway : Node.way? (tree.node? (start ++ [step])) with
      | none =>
        rw [hway] at h
        obtain ⟨-, hplace⟩ := Option.ite_none_right_eq_some.1 h.2
        rw [Option.some.inj hplace, hfolder] at hway
        cases hway
      | some way =>
        cases way with
        | none =>
          rw [hway] at h
          exact ih hrest h.2
        | some target => exact absurd (Node.way?_eq_link.1 hway) (hlinks.node?_ne_link _ target)

omit hlinks in
/-- A walk to something else than a folder has steps left at every folder. -/
theorem Walk.getLast? {place : Location}
    (hrest : Walk tree purpose links folder rest place) (hfolder : tree.node? folder = some .folder)
    (hnode : tree.node? place ≠ some .folder) (hlast : (step :: rest).getLast? = some last) :
    rest.getLast? = some last := by
  cases rest with
  | nil =>
    cases hrest
    exact absurd hfolder hnode
  | cons next others => simpa using hlast

/-- Without links a path to something else than a folder ends with the name of it. -/
theorem Walk.exists_concat (hsound : tree.Sound) {place : Location} {steps : List String}
    (hwalk : Walk tree purpose links folder steps place) (hfolder : tree.node? folder = some .folder)
    (hlast : steps.getLast? = some last) (hnode : tree.node? place ≠ some .folder) :
    ∃ above, place = above ++ [last] := by
  induction hwalk with
  | done => cases hlast
  | stay _ hrest ih => exact ih hfolder (hrest.getLast? hfolder hnode hlast) hnode
  | up _ hrest ih =>
    have habove := hsound.node?_dropLast hfolder
    exact ih habove (hrest.getLast? habove hnode hlast) hnode
  | @stop _ folder step =>
    have hstep : step = last := Option.some.inj hlast
    exact ⟨folder, by rw [hstep]⟩
  | enter _ _ hway hrest ih =>
    have hinner := Node.way?_eq_folder.1 hway
    exact ih hinner (hrest.getLast? hinner hnode hlast) hnode
  | follow _ _ hway => exact absurd (Node.way?_eq_link.1 hway) (hlinks.node?_ne_link _ _)

end LinkFree

theorem LinkFree.exists_concat_of_resolve (h : tree.LinkFree) (hsound : tree.Sound)
    (hstep : Path.IsStep step) {place : Location}
    (hplace : (tree.resolve purpose (path.join step)).toOption = some place)
    (hnode : tree.node? place ≠ some .folder) : ∃ above, place = above ++ [step] := by
  rw [toOption_resolve_eq tree purpose (text_ne_empty_of_resolve hplace), Option.ite_none_right_eq_some,
    walk_iff] at hplace
  refine hplace.2.exists_concat h hsound (node?_start hsound.working _) ?_ hnode
  rw [path.steps_join hstep, List.getLast?_concat]

/-- Names that lead down from a folder, joined to its path. -/
theorem toOption_resolve_join (hlinks : tree.LinkFree) {target : Path}
    (htarget : (tree.resolve .visit target).toOption = some folder) {names : List String}
    (hnames : ∀ name ∈ names, Path.IsName name)
    (hfolders : ∀ front, front <+: names → tree.node? (folder ++ front) = some .folder)
    (hlast : Path.IsStep last) (purpose : Purpose) :
    (tree.resolve purpose ((target.joinAll names).join last)).toOption =
      if fits ((target.joinAll names).join last) && names.all (·.utf8ByteSize ≤ nameLimit) then
        (tree.resolveSteps purpose linkLimit (folder ++ names) [last]).toOption
      else none := by
  have htext := text_ne_empty_of_resolve htarget
  have hsteps : ∀ name ∈ names, Path.IsStep name := fun name hname => (hnames name hname).toIsStep
  have hjoined := Path.joinAll_text_ne_empty hsteps htext
  obtain ⟨tail, htail, hsplit⟩ := target.exists_steps_eq
  rw [toOption_resolve_eq tree .visit htext, hsplit] at htarget
  have hreached := (Option.ite_none_right_eq_some.1 htarget).2
  have hfolder : tree.node? folder = some .folder := by simpa using hfolders [] List.nil_prefix
  have hback : names ++ [last] ≠ [""] := by
    cases names with
    | nil => simpa using hlast.ne_empty
    | cons name others => simp
  rw [toOption_resolve_eq tree purpose (Path.join_text_ne_empty _ hlast), Path.steps_join _ hlast,
    target.strides_joinAll hsteps, Path.startsAtRoot_join hjoined, Path.startsAtRoot_joinAll hsteps htext,
    List.append_assoc, toOption_resolveSteps_append hlinks target.empty_not_mem_strides htail hreached hfolder
      (by simp) hback, toOption_resolveSteps_folders hnames hfolders (by simpa using hlast.ne_empty)]
  by_cases hfits : fits ((target.joinAll names).join last) = true <;> simp [hfits]

end FileTree

end Offside
