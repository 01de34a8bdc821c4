import Offside.Proofs.Files.Discovery

/-!
# The order of what is found

Paths are compared part by part.  Paths of one folder have its parts in front, so they are in the order of the names
behind it, compared name by name as texts.
-/

namespace Offside

namespace Path

open FileTree (startsAtRoot)

/-! ## Parts of joined paths -/

/-- The text in front of the first slash. -/
def firstSegment (text : List Char) : List Char := text.takeWhile (· ≠ '/')

theorem firstSegment_append (front name : List Char) : firstSegment (front ++ '/' :: name) = firstSegment front := by
  induction front with
  | nil => rfl
  | cons c front ih =>
    rw [List.cons_append, firstSegment, List.takeWhile_cons, firstSegment, List.takeWhile_cons]
    split
    · exact congrArg _ ih
    · rfl

theorem head?_segments (text : List Char) : (segments text).head? = some (firstSegment text) := by
  induction text with
  | nil => rfl
  | cons c text ih =>
    rw [segments, firstSegment, List.takeWhile_cons]
    split
    · simp_all
    · cases hsegments : segments text with
      | nil => exact absurd hsegments (segments_ne_nil text)
      | cons first others => simp_all [firstSegment]

/-- The parts of a path are its strides, and in front of them the root or a dot. -/
theorem parts_eq (path : Path) : path.parts =
    (if startsAtRoot path.text then [Part.root]
      else if firstSegment path.text.toList = ['.'] then [.here] else []) ++
      path.strides.filterMap fun stride => partOf? stride.toList := by
  have hhead := head?_segments path.text.toList
  have hstrides : (segments path.text.toList).filterMap partOf? =
      path.strides.filterMap fun stride => partOf? stride.toList := by
    rw [strides, List.filterMap_filter, List.filterMap_map]
    congr 1
    funext segment
    by_cases hsegment : segment = [] <;> simp [hsegment, partOf?]
  obtain ⟨first, others, hsegments⟩ := List.exists_cons_of_ne_nil (segments_ne_nil path.text.toList)
  rw [hsegments, List.head?_cons, Option.some.injEq] at hhead
  rw [parts, hstrides, hsegments, ← hhead, startsAtRoot]
  congr 1
  split
  · simp_all
  · cases htext : path.text.toList <;> simp_all
  · cases htext : path.text.toList <;> simp_all

theorem parts_join {path : Path} (hpath : path.text ≠ "") {name : String} (hname : IsName name) :
    (path.join name).parts = path.parts ++ [Part.name name] := by
  have hfirst : firstSegment (path.join name).text.toList = firstSegment path.text.toList := by
    obtain ⟨front, last, htext⟩ := List.eq_nil_or_concat path.text.toList |>.resolve_left (by simpa using hpath)
    rw [toList_join, lead, htext]
    by_cases hslash : last = '/'
    · simp [hslash, firstSegment_append]
    · simpa [hslash] using firstSegment_append (front ++ [last]) name.toList
  have hhere : name.toList ≠ ['.'] := fun h => hname.ne_here (String.toList_inj.1 (h.trans rfl))
  have hparent : name.toList ≠ ['.', '.'] := fun h => hname.ne_parent (String.toList_inj.1 (h.trans rfl))
  have hpart : partOf? name.toList = some (.name name) := by simp [partOf?, hname.ne_empty, hhere, hparent]
  rw [parts_eq, parts_eq, startsAtRoot_join hpath, hfirst, path.strides_join hname.toIsStep, List.filterMap_append,
    List.append_assoc]
  simp [hpart]

theorem parts_joinAll {path : Path} (hpath : path.text ≠ "") {names : List String}
    (hnames : ∀ name ∈ names, IsName name) : (path.joinAll names).parts = path.parts ++ names.map .name := by
  induction names generalizing path with
  | nil => simp [joinAll]
  | cons name names ih =>
    obtain ⟨hname, hrest⟩ := List.forall_mem_cons.1 hnames
    rw [joinAll_cons, ih (path.join_text_ne_empty hname.toIsStep) hrest, parts_join hpath hname, List.map_cons,
      List.append_assoc, List.singleton_append]

theorem partsLe_append (front : List Part) (path other : List Part) :
    partsLe (front ++ path) (front ++ other) = partsLe path other := by
  induction front with
  | nil => rfl
  | cons part front ih => simp [partsLe, ih]

/-- Names are compared as lists of texts are. -/
theorem partsLe_names (names others : List String) :
    partsLe (names.map .name) (others.map .name) = decide (¬ others < names) := by
  induction names generalizing others with
  | nil => simp [partsLe]
  | cons name names ih =>
    cases others with
    | nil => simp [partsLe]
    | cons other others =>
      simp only [List.map_cons, partsLe, Part.name.injEq, ih, Part.lt, List.cons_lt_cons_iff]
      split
      · simp_all
      · grind

theorem le_joinAll {path : Path} (hpath : path.text ≠ "") {names others : List String}
    (hnames : ∀ name ∈ names, IsName name) (hothers : ∀ name ∈ others, IsName name) :
    (path.joinAll names).le (path.joinAll others) = decide (¬ others < names) := by
  rw [le, parts_joinAll hpath hnames, parts_joinAll hpath hothers, partsLe_append, partsLe_names]

/-- A path has an extension if its last name is a stem, a dot and the extension, which holds no other dot. -/
theorem hasExtension_joinAll {path : Path} {extension : String} {names : List String}
    (hnames : ∀ name ∈ names, IsName name) (hne : names ≠ []) :
    (path.joinAll names).hasExtension extension = true ↔ ∃ front stem,
      names = front ++ [dotted stem extension] ∧ stem ≠ "" ∧ '.' ∉ extension.toList := by
  constructor
  · intro h
    obtain ⟨front, last, rfl⟩ : ∃ front last, names = front ++ [last] :=
      ⟨_, _, (List.dropLast_concat_getLast hne).symm⟩
    rw [joinAll_append] at h
    obtain ⟨stem, hstem, hdot, rfl⟩ := exists_stem_of_hasExtension (hnames last (by simp)) h
    exact ⟨front, stem, rfl, hstem, hdot⟩
  · rintro ⟨front, stem, rfl, hstem, hdot⟩
    rw [joinAll_append, hasExtension, extension?_join _ hstem hdot (hnames _ (by simp)), decide_eq_true rfl]

end Path

namespace FileTree

open Path (dotted)

/-- The names of the files below a folder that have an extension, down to a depth, in order. -/
def listing (tree : FileTree) (root : Path) (folder : Location) (extension : String) (depth : Nat) :
    List (List String) :=
  ((tree.namesUnder depth folder .folder).filter fun names => (root.joinAll names).hasExtension extension).mergeSort
    fun names others => decide (¬ others < names)

section Listing

variable {tree : FileTree} (hsound : tree.Sound) {root : Path} {folder : Location}
  (hfolder : tree.node? folder = some .folder) (extension : String)

include hsound

theorem Sound.pairwise_listing (depth : Nat) : (tree.listing root folder extension depth).Pairwise (· < ·) := by
  have hsorted : (tree.listing root folder extension depth).Pairwise fun names others =>
      decide (¬ others < names) := by
    refine List.pairwise_mergeSort (fun names middle others hle hle' => ?_) (fun names others => ?_) _
    · exact decide_eq_true (List.le_trans (of_decide_eq_true hle) (of_decide_eq_true hle'))
    · rw [Bool.or_eq_true, decide_eq_true_eq, decide_eq_true_eq]
      exact List.le_total names others
  have hnodup : (tree.listing root folder extension depth).Nodup :=
    (List.mergeSort_perm _ _).nodup_iff.2 ((hsound.nodup_namesUnder depth folder .folder).filter _)
  refine (hsorted.and hnodup).imp ?_
  rintro names others ⟨hle, hne⟩
  by_contra hlt
  exact hne (List.le_antisymm (of_decide_eq_true hle) hlt)

include hfolder

theorem Sound.mem_listing {depth : Nat} {names : List String} :
    names ∈ tree.listing root folder extension depth ↔ names.length ≤ depth ∧
      (∃ content, tree.node? (folder ++ names) = some (.file content)) ∧
      ∃ front stem, names = front ++ [dotted stem extension] ∧ stem ≠ "" ∧ '.' ∉ extension.toList := by
  rw [listing, (List.mergeSort_perm _ _).mem_iff, List.mem_filter]
  constructor
  · rintro ⟨hmem, hextension⟩
    obtain ⟨hisName, -, content, hfile⟩ := hsound.of_mem_namesUnder hfolder hmem
    have hne : names ≠ [] := by
      rintro rfl
      rw [List.append_nil, hfolder] at hfile
      cases hfile
    exact ⟨length_le_of_mem_namesUnder hmem, ⟨content, hfile⟩, (Path.hasExtension_joinAll hisName hne).1 hextension⟩
  · rintro ⟨hdepth, ⟨content, hfile⟩, hextension⟩
    have hmem := hsound.mem_namesUnder_of_file hfolder hfile hdepth
    have hisName := (hsound.of_mem_namesUnder hfolder hmem).1
    have hne : names ≠ [] := by
      obtain ⟨front, stem, rfl, -⟩ := hextension
      simp
    exact ⟨hmem, (Path.hasExtension_joinAll hisName hne).2 hextension⟩

/-- What is directly in a folder is listed as it is among all. -/
theorem Sound.listing_one {depth : Nat} (hdepth : 0 < depth) : tree.listing root folder extension 1 =
    (tree.listing root folder extension depth).filter fun names => names.length = 1 := by
  have hone : (tree.listing root folder extension 1).Pairwise (· < ·) := hsound.pairwise_listing extension 1
  have hall : ((tree.listing root folder extension depth).filter fun names => names.length = 1).Pairwise (· < ·) :=
    (hsound.pairwise_listing extension depth).filter _
  have hne {names others : List String} (h : names < others) : names ≠ others := fun heq => List.lt_irrefl _ (heq ▸ h)
  refine List.Perm.eq_of_pairwise (fun _ _ _ _ h h' => absurd h (List.lt_asymm h')) hone hall ?_
  rw [List.perm_ext_iff_of_nodup (hone.imp hne) (hall.imp hne)]
  intro names
  rw [List.mem_filter, hsound.mem_listing hfolder, hsound.mem_listing hfolder, decide_eq_true_eq]
  constructor
  · rintro ⟨hlength, hfile, hextension⟩
    have hpos : 0 < names.length := by
      obtain ⟨front, stem, rfl, -⟩ := hextension
      simp
    exact ⟨⟨by omega, hfile, hextension⟩, by omega⟩
  · rintro ⟨⟨-, hfile, hextension⟩, hlength⟩
    exact ⟨hlength.le, hfile, hextension⟩

variable (hlinks : tree.LinkFree) (hroot : (tree.resolve .visit root).toOption = some folder)

include hlinks hroot

theorem Sound.discover_eq_listing (recursive : Bool) : tree.discover root extension recursive = .ok
    ((tree.listing root folder extension (if recursive then tree.depthBound else 1)).map root.joinAll) := by
  rw [hlinks.discover_eq hroot hfolder, List.filter_map, listing, List.map_mergeSort]
  · rfl
  · intro names hnames others hothers
    obtain ⟨hisName, -⟩ := hsound.of_mem_namesUnder hfolder (List.mem_of_mem_filter hnames)
    obtain ⟨hisName', -⟩ := hsound.of_mem_namesUnder hfolder (List.mem_of_mem_filter hothers)
    exact (Path.le_joinAll (text_ne_empty_of_resolve hroot) hisName hisName').symm

end Listing

end FileTree

end Offside
