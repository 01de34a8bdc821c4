import Offside.Proofs.Files.Resolution

/-!
# Trees that are edited

A file can be put into a sound tree, with the folders on the way to it, and taken away again.  The tree stays sound:
one place changes, and every other one stays as it is or becomes a folder where nothing stood before.  So the folders
stay, and a path that led to one of them still does.
-/

namespace Offside.FileTree

variable {tree now : FileTree} {place : Location} {node : Node} {nodes : List (Location × Node)}

/-! ## Entries -/

theorem mem_putNode {entry : Location × Node}
    (h : entry ∈ putNode place node nodes) : entry = (place, node) ∨ entry ∈ nodes := by
  induction nodes with
  | nil => exact .inl (List.mem_singleton.1 h)
  | cons first nodes ih =>
    rw [putNode] at h
    split at h
    · exact (List.mem_cons.1 h).imp_right (List.mem_cons_of_mem _)
    · rcases List.mem_cons.1 h with rfl | h
      · exact .inr List.mem_cons_self
      · exact (ih h).imp_right (List.mem_cons_of_mem _)

theorem nodup_putNode (h : (nodes.map Prod.fst).Nodup) : ((putNode place node nodes).map Prod.fst).Nodup := by
  induction nodes with
  | nil => simp [putNode]
  | cons first nodes ih =>
    obtain ⟨hfirst, hnodes⟩ := List.nodup_cons.1 h
    rw [putNode]
    split
    · rename_i heq
      rw [heq] at hfirst
      exact List.nodup_cons.2 ⟨hfirst, hnodes⟩
    · rename_i hne
      refine List.nodup_cons.2 ⟨fun hmem => ?_, ih hnodes⟩
      obtain ⟨entry, hentry, heq⟩ := List.mem_map.1 hmem
      rcases mem_putNode hentry with rfl | hentry
      · exact hne heq.symm
      · exact hfirst (heq ▸ List.mem_map_of_mem hentry)

theorem lookup_filter_ne (nodes : List (Location × Node)) (location : Location) :
    (nodes.filter (·.1 ≠ place)).lookup location = if location = place then none else nodes.lookup location := by
  induction nodes with
  | nil => simp
  | cons entry nodes ih =>
    obtain ⟨here, old⟩ := entry
    rw [lookup_cons]
    by_cases hhere : here = place
    · rw [List.filter_cons_of_neg (by simpa using hhere), ih]
      split <;> simp_all
    · rw [List.filter_cons_of_pos (by simpa using hhere), lookup_cons, ih]
      split <;> simp_all

theorem ne_nil_of_not_folder (here : tree.node? place ≠ some .folder) : place ≠ [] := by
  rintro rfl
  exact here rfl

/-! ## Edits -/

/-- The tree was changed at a place where no folder stood, and folders were made where nothing stood. -/
structure Edited (tree : FileTree) (place : Location) (now : FileTree) : Prop where
  sound : now.Sound
  linkFree : now.LinkFree
  working : now.working = tree.working
  here : tree.node? place ≠ some .folder
  elsewhere : ∀ location, location ≠ place → now.node? location = tree.node? location ∨
    tree.node? location = none ∧ now.node? location = some .folder

theorem Edited.refl (hsound : tree.Sound) (hlinks : tree.LinkFree) (here : tree.node? place ≠ some .folder) :
    Edited tree place tree := ⟨hsound, hlinks, rfl, here, fun _ _ => .inl rfl⟩

theorem Edited.folder (h : Edited tree place now) {location : Location} (hfolder : tree.node? location = some .folder) :
    now.node? location = some .folder := by
  rcases h.elsewhere location fun heq => h.here (heq ▸ hfolder) with hsame | ⟨hnone, -⟩
  · rw [hsame, hfolder]
  · rw [hfolder] at hnone
    cases hnone

/-- What stands elsewhere afterwards, unless it is a folder, stood there before. -/
theorem Edited.node?_eq (h : Edited tree place now) {location : Location} (hne : location ≠ place)
    (hfolder : now.node? location ≠ some .folder) : now.node? location = tree.node? location :=
  (h.elsewhere location hne).resolve_right fun hnew => hfolder hnew.2

/-- A walk to a folder goes through folders only, which stay. -/
theorem Walk.edited {links : Nat} {folder top : Location} {steps : List String} (hlinks : tree.LinkFree)
    (hedited : Edited tree place now) (hwalk : Walk tree .visit links folder steps top)
    (htop : tree.node? top = some .folder) : Walk now .visit links folder steps top := by
  induction hwalk with
  | done => exact .done
  | stay hstay _ ih => exact .stay hstay (ih htop)
  | up hup _ ih => exact .up hup (ih htop)
  | stop hstep hcan hway =>
    rw [htop] at hway
    rcases hway with hway | ⟨hpurpose, -⟩
    · cases hway
    · cases hpurpose
  | enter hstep hcan hway _ ih =>
    have hfolder := hedited.folder (Node.way?_eq_folder.1 hway)
    exact .enter hstep hcan (Node.way?_eq_folder.2 hfolder) (ih htop)
  | follow _ _ hway => exact absurd (Node.way?_eq_link.1 hway) (hlinks.node?_ne_link _ _)

theorem Edited.toOption_resolve (h : Edited tree place now) (hlinks : tree.LinkFree) {target : Path} {top : Location}
    (htarget : (tree.resolve .visit target).toOption = some top) (htop : tree.node? top = some .folder) :
    (now.resolve .visit target).toOption = some top :=
  toOption_resolve_of_walk htarget h.working fun _ hwalk => hwalk.edited hlinks h htop

section Edits

variable (hsound : tree.Sound) (hlinks : tree.LinkFree)

include hsound hlinks

/-- Something is put into a folder, in the place of what is no folder. -/
theorem edited_put (hnames : ∀ name ∈ place, Path.IsName name) (hparent : tree.node? place.dropLast = some .folder)
    (here : tree.node? place ≠ some .folder) (hlink : ∀ target, node ≠ .link target) :
    Edited tree place (tree.put place node) := by
  have hroot := ne_nil_of_not_folder here
  have hreplaces := replaces_put tree hroot node
  have hfolder : ∀ {location}, tree.node? location = some .folder →
      (tree.put place node).node? location = some .folder := by
    intro location hlocation
    have hne : location ≠ place := fun heq => here (heq ▸ hlocation)
    rw [hreplaces.node, if_neg hne, hlocation]
  refine ⟨⟨nodup_putNode hsound.nodup, fun entry hentry => ?_, fun entry hentry => hfolder ?_, hfolder hsound.working⟩,
    fun entry hentry => ?_, rfl, here, fun location hne => .inl ?_⟩
  · rcases mem_putNode hentry with rfl | hentry
    · exact hnames
    · exact hsound.isName entry hentry
  · rcases mem_putNode hentry with rfl | hentry
    · exact hparent
    · exact hsound.parent entry hentry
  · rcases mem_putNode hentry with rfl | hentry
    · exact hlink
    · exact hlinks entry hentry
  · rw [hreplaces.node, if_neg hne]

omit hsound hlinks in
theorem node?_erase (here : place ≠ []) (location : Location) :
    (tree.erase place).node? location = if location = place then none else tree.node? location := by
  by_cases hroot : location = []
  · simp [node?, hroot, Ne.symm here]
  · simp only [node?, erase, if_neg hroot, lookup_filter_ne]

theorem edited_erase (here : tree.node? place ≠ some .folder) : Edited tree place (tree.erase place) := by
  have hroot := ne_nil_of_not_folder here
  have hfolder : ∀ {location}, tree.node? location = some .folder → (tree.erase place).node? location = some .folder := by
    intro location hlocation
    have hne : location ≠ place := fun heq => here (heq ▸ hlocation)
    rw [node?_erase hroot, if_neg hne, hlocation]
  have hmem : ∀ entry ∈ (tree.erase place).nodes, entry ∈ tree.nodes := fun entry hentry => (List.mem_filter.1 hentry).1
  refine ⟨⟨?_, fun entry hentry => hsound.isName entry (hmem entry hentry),
    fun entry hentry => hfolder (hsound.parent entry (hmem entry hentry)), hfolder hsound.working⟩,
    fun entry hentry => hlinks entry (hmem entry hentry), rfl, here, fun location hne => .inl ?_⟩
  · exact hsound.nodup.sublist (List.filter_sublist.map Prod.fst)
  · rw [node?_erase hroot, if_neg hne]

/-- The folders on the way to a place are made one after the other. -/
theorem exists_fill (hnames : ∀ name ∈ place, Path.IsName name)
    (hfree : ∀ count < place.length, tree.node? (place.take count) = none ∨
      tree.node? (place.take count) = some .folder) (count : Nat) (hcount : count ≤ place.length) :
    ∃ now, tree.fill ((List.range count).map place.take) = now ∧ now.Sound ∧ now.LinkFree ∧
      now.working = tree.working ∧ (∀ fewer < count, now.node? (place.take fewer) = some .folder) ∧
      ∀ location, now.node? location = tree.node? location ∨
        location.length < count ∧ tree.node? location = none ∧ now.node? location = some .folder := by
  induction count with
  | zero => exact ⟨tree, rfl, hsound, hlinks, rfl, fun _ h => absurd h (Nat.not_lt_zero _), fun _ => .inl rfl⟩
  | succ count ih =>
    obtain ⟨now, hfill, hsound', hlinks', hworking, hmade, helsewhere⟩ := ih (Nat.le_of_succ_le hcount)
    have hstep : tree.fill ((List.range (count + 1)).map place.take) =
        if (now.node? (place.take count)).isSome then now else now.put (place.take count) .folder := by
      rw [List.range_succ, List.map_append, ← hfill]
      exact List.foldl_append
    have hsame : now.node? (place.take count) = tree.node? (place.take count) := by
      refine (helsewhere _).resolve_right fun hnew => ?_
      have hlength := hnew.1
      rw [List.length_take] at hlength
      omega
    rw [hstep]
    rcases hfree count hcount with hnone | hfolder
    · rw [hsame, hnone, if_neg (by simp)]
      have hparent : now.node? (place.take count).dropLast = some .folder := by
        cases count with
        | zero => rfl
        | succ fewer =>
          rw [List.dropLast_take hcount]
          exact hmade fewer (Nat.lt_succ_self _)
      have hput : Edited now (place.take count) (now.put (place.take count) .folder) := edited_put hsound' hlinks'
        (fun name hname => hnames name (List.mem_of_mem_take hname)) hparent (by simp [hsame, hnone]) (by simp)
      have hroot : place.take count ≠ [] := by
        intro hroot
        rw [hroot] at hnone
        cases hnone
      have hreplaces := replaces_put now hroot .folder
      refine ⟨_, rfl, hput.sound, hput.linkFree, hworking, fun fewer hfewer => ?_, fun location => ?_⟩
      · rw [hreplaces.node]
        split
        · rfl
        · rename_i hne
          refine hmade fewer ((Nat.lt_succ_iff_lt_or_eq.1 hfewer).resolve_right fun heq => hne ?_)
          rw [heq]
      · rw [hreplaces.node]
        split
        · rename_i heq
          rw [heq]
          exact .inr ⟨by rw [List.length_take]; omega, hnone, rfl⟩
        · exact (helsewhere location).imp_right fun hnew => ⟨by omega, hnew.2⟩
    · rw [hsame, hfolder, if_pos (by rfl)]
      refine ⟨now, rfl, hsound', hlinks', hworking, fun fewer hfewer => ?_, fun location => ?_⟩
      · rcases Nat.lt_succ_iff_lt_or_eq.1 hfewer with hless | rfl
        · exact hmade fewer hless
        · rw [hsame, hfolder]
      · exact (helsewhere location).imp_right fun hnew => ⟨by omega, hnew.2⟩

/-- A file is put at a place, with the folders on the way to it. -/
theorem edited_plant (hnames : ∀ name ∈ place, Path.IsName name)
    (hfree : ∀ count < place.length, tree.node? (place.take count) = none ∨
      tree.node? (place.take count) = some .folder) (here : tree.node? place ≠ some .folder)
    (hlink : ∀ target, node ≠ .link target) :
    Edited tree place (tree.plant place node) ∧ (tree.plant place node).node? place = some node := by
  have hroot := ne_nil_of_not_folder here
  obtain ⟨now, hfill, hsound', hlinks', hworking, hmade, helsewhere⟩ :=
    exists_fill hsound hlinks hnames hfree place.length (Nat.le_refl _)
  have hsame : now.node? place = tree.node? place :=
    (helsewhere place).resolve_right fun hnew => Nat.lt_irrefl _ hnew.1
  have hparent : now.node? place.dropLast = some .folder := by
    rw [List.dropLast_eq_take]
    exact hmade _ (Nat.sub_lt (List.length_pos_iff.2 hroot) Nat.one_pos)
  have hput := edited_put hsound' hlinks' hnames hparent (by rwa [hsame]) hlink
  rw [plant, hfill]
  refine ⟨⟨hput.sound, hput.linkFree, hput.working.trans hworking, here, fun location hne => ?_⟩, ?_⟩
  · rw [(replaces_put now hroot node).node, if_neg hne]
    exact (helsewhere location).imp_right And.right
  · rw [(replaces_put now hroot node).node, if_pos rfl]

/-- Writing puts a file at the place that the path leads to, or changes nothing. -/
theorem edited_write {path : Path} {text : String} (hresolve : (tree.resolve .create path).toOption = some place)
    (hwrite : tree.write path text = .ok now) (hnames : ∀ name ∈ place, Path.IsName name)
    (hparent : tree.node? place.dropLast = some .folder) (here : tree.node? place ≠ some .folder) :
    Edited tree place now := by
  have hplace : tree.resolve .create path = .ok place := by
    cases hplace : tree.resolve .create path <;> simp_all [Except.toOption]
  rw [write, writeBytes, hplace] at hwrite
  simp only [bind, Except.bind] at hwrite
  split at hwrite
  · cases hwrite
  · cases hwrite
    exact .refl hsound hlinks here
  · split at hwrite
    · cases hwrite
      exact .refl hsound hlinks here
    · cases hwrite
  · cases hwrite
    exact edited_put hsound hlinks hnames hparent here (by simp)

end Edits

end Offside.FileTree
