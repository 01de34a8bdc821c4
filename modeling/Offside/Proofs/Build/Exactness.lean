import Offside.Proofs.Build.Effect
import Offside.Proofs.Files.Discovery

/-!
# Builds of folders

The sources below a folder are compiled to places beside them, which differ from each other and from the sources, so
it does not matter in which order they are compiled.  What stands at each place afterwards is told by the tree before
the build.
-/

namespace Offside

open FileTree (fits nameLimit)
open Offside.Path (IsName IsStep dotted exchanged lastPart)

variable {tools : Tool.Box} {process : Step → String → Option String} {tree : FileTree} {folder : Location}

namespace Job

/-- Where the text of a source goes: beside it, under its stem and the output extension.  There is no such place for
a stem that is a dot, and none whose name or path is too long or holds a zero. -/
def place? (job : Job) (tree : FileTree) (path : Path) : Option Location := do
  let location ← (tree.resolve .visit path).toOption
  let stem := String.ofList (Path.splitName (location.getLastD "").toList).1
  let name := dotted stem job.settings.outputExtension
  let output ← path.withExtension? job.settings.outputExtension
  if stem ≠ "." && name.utf8ByteSize ≤ nameLimit && fits output then some (location.dropLast ++ [name]) else none

/-- What a source comes to: the place beside it, and what stands there afterwards.  A source that cannot be read or
compiled, or whose text is not taken where it goes, comes to nothing. -/
def delivery? (process : Step → String → Option String) (job : Job) (tree : FileTree) (path : Path) :
    Option (Location × Node) := do
  let text ← job.text? process tree path
  let place ← job.place? tree path
  let node ← Node.taking text.toUTF8 (tree.node? place)
  return (place, node)

end Job

/-- Outputs have an extension, which leaves them in the folder of their source and which is not that of the sources. -/
structure Job.Exchanges (job : Job) : Prop where
  ne_empty : job.settings.outputExtension ≠ ""
  slash : '/' ∉ job.settings.outputExtension.toList
  ne_source : lastPart job.settings.outputExtension.toList ≠ job.settings.sourceExtension.toList

/-- The target leads to a folder of a sound tree without links. -/
structure Ground (target : Path) (folder : Location) (tree : FileTree) : Prop where
  sound : tree.Sound
  linkFree : tree.LinkFree
  target : (tree.resolve .visit target).toOption = some folder
  folder : tree.node? folder = some .folder

theorem exists_ground (hsound : tree.Sound) (hlinks : tree.LinkFree) {target : Path}
    (htarget : tree.isFolder target = true) : ∃ folder, Ground target folder tree := by
  obtain ⟨folder, hresolve, hfolder⟩ := FileTree.exists_folder htarget
  exact ⟨folder, hsound, hlinks, hresolve, hfolder⟩

/-- A source below a folder: the names of the folders on the way to it, and its stem. -/
structure Found (tree : FileTree) (target : Path) (folder : Location) (extension : String) (path : Path)
    (names : List String) (stem : String) : Prop where
  path_eq : path = (target.joinAll names).join (dotted stem extension)
  isName : ∀ name ∈ names, IsName name
  folders : ∀ front, front <+: names → tree.node? (folder ++ front) = some .folder
  isName_last : IsName (dotted stem extension)
  stem_ne : stem ≠ ""
  dot_not_mem : '.' ∉ extension.toList

theorem exists_found_of_names {target : Path} {extension : String} {names : List String}
    (hisName : ∀ name ∈ names, IsName name) (hne : names ≠ [])
    (hextension : (target.joinAll names).hasExtension extension = true) :
    ∃ front stem, names = front ++ [dotted stem extension] ∧ '.' ∉ extension.toList ∧
      ∀ {folder : Location} {tree : FileTree} {node : Node}, tree.Sound → tree.node? (folder ++ names) = some node →
        Found tree target folder extension (target.joinAll names) front stem := by
  obtain ⟨front, last, rfl⟩ : ∃ front last, names = front ++ [last] :=
    ⟨_, _, (List.dropLast_concat_getLast hne).symm⟩
  simp only [List.forall_mem_append, List.forall_mem_singleton] at hisName
  rw [Path.joinAll_append] at hextension
  obtain ⟨stem, hstem, hdot, rfl⟩ := Path.exists_stem_of_hasExtension hisName.2 hextension
  refine ⟨front, stem, rfl, hdot, fun {folder} _ _ hsound hnode =>
    ⟨Path.joinAll_append .., hisName.1, ?_, hisName.2, hstem, hdot⟩⟩
  rintro start ⟨rest, rfl⟩
  rw [List.append_assoc, ← List.append_assoc folder] at hnode
  exact hsound.node?_of_append (by simp) hnode

theorem Ground.ne_nil {target : Path} (h : Ground target folder tree) {names : List String} {content : ByteArray}
    (hfile : tree.node? (folder ++ names) = some (.file content)) : names ≠ [] := by
  rintro rfl
  rw [List.append_nil, h.folder] at hfile
  cases hfile

theorem Ground.exists_found {target : Path} (h : Ground target folder tree) {depth : Nat} {extension : String} {path : Path}
    (hpath : path ∈ ((tree.namesUnder depth folder .folder).map target.joinAll).filter (·.hasExtension extension)) :
    ∃ names stem, Found tree target folder extension path names stem := by
  obtain ⟨hmem, hextension⟩ := List.mem_filter.1 hpath
  obtain ⟨names, hnames, rfl⟩ := List.mem_map.1 hmem
  obtain ⟨hisName, -, content, hfile⟩ := h.sound.of_mem_namesUnder h.folder hnames
  obtain ⟨front, stem, -, -, hfound⟩ := exists_found_of_names hisName (h.ne_nil hfile) hextension
  exact ⟨front, stem, hfound h.sound hfile⟩

theorem Job.Exchanges.dotted_ne {job : Job} (hjob : job.Exchanges) (hdot : '.' ∉ job.settings.sourceExtension.toList)
    (stem other : String) : dotted stem job.settings.outputExtension ≠ dotted other job.settings.sourceExtension := by
  intro heq
  have hparts := congrArg (fun name => lastPart name.toList) heq
  simp only [Path.toList_dotted, Path.lastPart_append, Path.lastPart_of_not_mem hdot] at hparts
  exact hjob.ne_source hparts

namespace Found

variable {tree : FileTree} {target path : Path} {folder place : Location} {extension stem : String}
  {names : List String}

section Place

variable (h : Found tree target folder extension path names stem) (hground : Ground target folder tree)

include h hground

/-- Where a name in the folder of a source leads, whether or not something stands there. -/
theorem toOption_resolve_beside {name : String} (hname : IsName name) (purpose : FileTree.Purpose) :
    (tree.resolve purpose ((target.joinAll names).join name)).toOption =
      if fits ((target.joinAll names).join name) && names.all (·.utf8ByteSize ≤ nameLimit) then
        if name.utf8ByteSize ≤ nameLimit then some (folder ++ names ++ [name]) else none
      else none := by
  rw [FileTree.toOption_resolve_join hground.linkFree hground.target h.isName h.folders hname.toIsStep,
    FileTree.toOption_resolveSteps_last hground.linkFree hname]

/-- The place of a source, if its path can be followed at all. -/
theorem eq_of_toOption_resolve (hplace : (tree.resolve .visit path).toOption = some place) :
    place = folder ++ names ++ [dotted stem extension] ∧ names.all (·.utf8ByteSize ≤ nameLimit) = true := by
  rw [h.path_eq, h.toOption_resolve_beside hground h.isName_last] at hplace
  simp only [Option.ite_none_right_eq_some, Bool.and_eq_true] at hplace
  obtain ⟨⟨-, hnames⟩, -, hplace⟩ := hplace
  exact ⟨(Option.some.inj hplace).symm, hnames⟩

end Place

section Output

variable {job : Job} (h : Found tree target folder job.settings.sourceExtension path names stem)
  (hjob : job.Exchanges)

include h hjob

theorem withExtension?_eq : path.withExtension? job.settings.outputExtension =
    some ((target.joinAll names).join (exchanged stem job.settings.outputExtension)) := by
  rw [h.path_eq, Path.withExtension?_join _ h.stem_ne h.dot_not_mem h.isName_last hjob.ne_empty hjob.slash]

variable (hground : Ground target folder tree)

include hground

/-- A stem that is not a dot has its output beside it. -/
theorem outputPlace?_eq (hstem : stem ≠ ".") : job.outputPlace? tree path =
    let name := dotted stem job.settings.outputExtension
    if fits ((target.joinAll names).join name) && names.all (·.utf8ByteSize ≤ nameLimit) then
      if name.utf8ByteSize ≤ nameLimit then some (folder ++ names ++ [name]) else none
    else none := by
  have hname := Path.isName_dotted h.isName_last h.stem_ne hjob.ne_empty hjob.slash
  rw [Job.outputPlace?, h.withExtension?_eq hjob, Option.bind_some, exchanged, if_neg hstem]
  exact h.toOption_resolve_beside hground hname .create

/-- A stem that is a dot has no output but the folder above. -/
theorem node?_outputPlace? (hstem : stem = ".") (hplace : job.outputPlace? tree path = some place) :
    tree.node? place = some .folder := by
  have hstep := Path.isStep_exchanged h.isName_last h.stem_ne hjob.ne_empty hjob.slash
  rw [Job.outputPlace?, h.withExtension?_eq hjob, Option.bind_some,
    FileTree.toOption_resolve_join hground.linkFree hground.target h.isName h.folders hstep,
    Option.ite_none_right_eq_some, exchanged, if_pos hstem, FileTree.resolveSteps_up,
    FileTree.resolveSteps_nil] at hplace
  rw [← Option.some.inj hplace.2]
  exact hground.sound.node?_dropLast (h.folders names List.prefix_rfl)

theorem place?_eq {location : Location} (hlocation : (tree.resolve .visit path).toOption = some location) :
    job.place? tree path = if stem = "." then none else job.outputPlace? tree path := by
  obtain ⟨rfl, hnames⟩ := h.eq_of_toOption_resolve hground hlocation
  have hstem : stem.toList ≠ [] := by simpa using h.stem_ne
  have hsplit : String.ofList (Path.splitName (dotted stem job.settings.sourceExtension).toList).1 = stem := by
    rw [Path.toList_dotted, Path.splitName_append _ h.dot_not_mem, if_neg hstem, String.ofList_toList]
  simp only [Job.place?, hlocation, h.withExtension?_eq hjob, bind, Option.bind_some, List.getLastD_concat,
    List.dropLast_concat, hsplit]
  by_cases hdot : stem = "."
  · simp [hdot]
  · rw [if_neg hdot, h.outputPlace?_eq hjob hground hdot]
    simp only [exchanged, if_neg hdot, hnames, Bool.and_true]
    by_cases hsize : (dotted stem job.settings.outputExtension).utf8ByteSize ≤ nameLimit <;>
      by_cases hfits : fits ((target.joinAll names).join (dotted stem job.settings.outputExtension)) = true <;>
        simp [hdot, hsize, hfits]

/-- What compiling a source replaces is what it comes to. -/
theorem effect?_eq_delivery? : job.effect? process tree path = job.delivery? process tree path := by
  unfold Job.effect? Job.delivery?
  cases htext : job.text? process tree path with
  | none => rfl
  | some text =>
    obtain ⟨location, hlocation⟩ := Job.exists_place_of_text? htext
    rw [h.place?_eq hjob hground hlocation]
    by_cases hdot : stem = "."
    · rw [if_pos hdot]
      cases hplace : job.outputPlace? tree path with
      | none => rfl
      | some place =>
        have hfolder := h.node?_outputPlace? hjob hground hdot hplace
        simp [hfolder, Node.taking]
    · rw [if_neg hdot]

theorem eq_of_hits (hhits : job.Hits tree path place) :
    stem ≠ "." ∧ place = folder ++ names ++ [dotted stem job.settings.outputExtension] := by
  have hplace := hhits.outputPlace
  have hdot : stem ≠ "." := fun hdot =>
    hhits.node (h.node?_outputPlace? hjob hground hdot hplace)
  rw [h.outputPlace?_eq hjob hground hdot] at hplace
  simp only [Option.ite_none_right_eq_some] at hplace
  exact ⟨hdot, (Option.some.inj hplace.2.2).symm⟩

/-- Sources with one output have the same names. -/
theorem eq_of_hits_both {now : FileTree} {other : Path} {names' : List String} {stem' : String}
    (h' : Found now target folder job.settings.sourceExtension other names' stem') (hafter : Ground target folder now)
    (hhits : job.Hits tree path place) (hmeets : job.Hits now other place) : names = names' ∧ stem = stem' := by
  obtain ⟨-, hleft⟩ := h.eq_of_hits hjob hground hhits
  obtain ⟨-, hright⟩ := h'.eq_of_hits hjob hafter hmeets
  obtain ⟨hfront, hlast⟩ := List.append_inj' (hleft.symm.trans hright) rfl
  exact ⟨List.append_cancel_left hfront, Path.dotted_injective (List.singleton_inj.1 hlast)⟩

end Output

end Found

/-! ## Sources that do not meet -/

section Sources

variable {tree : FileTree} {target : Path} {folder : Location} (hground : Ground target folder tree) {job : Job}
  (hjob : job.Exchanges) {sources : List Path} (hfound : ∀ path ∈ sources, ∃ names stem,
    Found tree target folder job.settings.sourceExtension path names stem)

include hground hjob hfound

/-- No source is at a place that another one goes to. -/
theorem not_hits_of_found : ∀ path ∈ sources, ∀ source ∈ sources, ∀ place, job.Hits tree path place →
    (tree.resolve .visit source).toOption ≠ some place := by
  intro path hpath source hsource place hhits hplace
  obtain ⟨names, stem, hpath⟩ := hfound path hpath
  obtain ⟨names', stem', hsource⟩ := hfound source hsource
  obtain ⟨-, rfl⟩ := hpath.eq_of_hits hjob hground hhits
  obtain ⟨heq, -⟩ := hsource.eq_of_toOption_resolve hground hplace
  exact hjob.dotted_ne hsource.dot_not_mem _ _ (List.singleton_inj.1 (List.append_inj' heq rfl).2)

theorem apart_of_found : job.Apart process tree sources := by
  have hsources := not_hits_of_found hground hjob hfound
  constructor
  · intro path hpath source hsource place node heffect
    exact hsources path hpath source hsource place (Job.hits_of_effect? heffect)
  · intro path hpath source hsource hne place node heffect hplace
    obtain ⟨names, stem, hpath⟩ := hfound path hpath
    obtain ⟨names', stem', hsource⟩ := hfound source hsource
    have hhits := Job.hits_of_effect? heffect
    obtain ⟨hnames, hstem⟩ := hpath.eq_of_hits_both hjob hground hsource hground hhits ⟨hplace, hhits.node⟩
    rw [hpath.path_eq, hsource.path_eq, hnames, hstem] at hne
    exact hne rfl

omit hground in
/-- Different sources have different output paths. -/
theorem nodup_outputs (hnodup : sources.Nodup) :
    (sources.map (·.withExtension? job.settings.outputExtension)).Nodup := by
  refine hnodup.map_on fun path hpath other hother heq => ?_
  obtain ⟨names, stem, hpath⟩ := hfound path hpath
  obtain ⟨names', stem', hother⟩ := hfound other hother
  rw [hpath.withExtension?_eq hjob, hother.withExtension?_eq hjob, Option.some.injEq,
    ← Path.joinAll_append, ← Path.joinAll_append] at heq
  have hsteps : ∀ {path names stem}, Found tree target folder job.settings.sourceExtension path names stem →
      ∀ name ∈ names ++ [exchanged stem job.settings.outputExtension], IsStep name := by
    intro path names stem h name hname
    cases List.mem_append.1 hname with
    | inl hfront => exact (h.isName name hfront).toIsStep
    | inr hlast =>
      rw [List.mem_singleton.1 hlast]
      exact Path.isStep_exchanged h.isName_last h.stem_ne hjob.ne_empty hjob.slash
  have hjoined := Path.joinAll_injective target (hsteps hpath) (hsteps hother) heq
  obtain ⟨hnames, hlast⟩ := List.append_inj' hjoined rfl
  have hstem := Path.exchanged_injective hpath.isName_last hother.isName_last hpath.stem_ne hother.stem_ne
    hjob.ne_empty hjob.slash (List.singleton_inj.1 hlast)
  rw [hpath.path_eq, hother.path_eq, hnames, hstem]

end Sources

/-- The sources that a folder stands for are those that names lead to. -/
theorem Ground.exists_perm_sources {target : Path} (h : Ground target folder tree) {job : Job}
    (hout : job.toStdout = false) : ∃ sources, job.sources tree target = .ok sources ∧
      sources.Perm (((tree.namesUnder (if job.settings.recursive then tree.depthBound else 1) folder .folder).map
        target.joinAll).filter (·.hasExtension job.settings.sourceExtension)) := by
  have hdiscover := h.linkFree.discover_eq h.target h.folder job.settings.sourceExtension job.settings.recursive
  have hfind := FileTree.find_eq_ok h.target h.folder
  refine ⟨_, ?_, List.mergeSort_perm _ Path.le⟩
  simp [Job.sources, FileTree.isFile, FileTree.isFolder, hfind, hout, hdiscover]

theorem Ground.nodup_found {target : Path} (h : Ground target folder tree) (depth : Nat) (extension : String) :
    (((tree.namesUnder depth folder .folder).map target.joinAll).filter (·.hasExtension extension)).Nodup := by
  refine List.Nodup.filter _ ((h.sound.nodup_namesUnder _ _ _).map_on ?_)
  intro names hnames others hothers heq
  obtain ⟨hisName, -, -⟩ := h.sound.of_mem_namesUnder h.folder hnames
  obtain ⟨hisName', -, -⟩ := h.sound.of_mem_namesUnder h.folder hothers
  exact Path.joinAll_injective target (fun name hname => (hisName name hname).toIsStep)
    (fun name hname => (hisName' name hname).toIsStep) heq

namespace Build

/-- No two sources replace the same, so the one that replaces a place is found. -/
theorem lookup_effects_eq_some {job : Job} {tree : FileTree} {sources : List Path}
    (hapart : job.Apart process tree sources) {path : Path} (hpath : path ∈ sources) {place : Location} {node : Node}
    (heffect : job.effect? process tree path = some (place, node)) {order : List Path} (horder : order.Perm sources) :
    (order.filterMap (job.effect? process tree)).lookup place = some node := by
  have hmem : (place, node) ∈ order.filterMap (job.effect? process tree) :=
    List.mem_filterMap.2 ⟨path, horder.mem_iff.2 hpath, heffect⟩
  cases hlookup : (order.filterMap (job.effect? process tree)).lookup place with
  | none =>
    have hne := List.lookup_eq_none_iff.1 hlookup _ hmem
    simp at hne
  | some found =>
    obtain ⟨front, back, hsplit, -⟩ := List.lookup_eq_some_iff.1 hlookup
    have hfound : (place, found) ∈ order.filterMap (job.effect? process tree) := by simp [hsplit]
    obtain ⟨other, hother, hothers⟩ := List.mem_filterMap.1 hfound
    by_cases heq : path = other
    · rw [← heq, heffect] at hothers
      rw [(Prod.mk.inj (Option.some.inj hothers)).2]
    · obtain ⟨_, -, hplace, -⟩ := Job.effect?_eq_some.1 hothers
      exact absurd hplace (hapart.output path hpath other (horder.mem_iff.1 hother) heq place node heffect)

/-- A system whose only file is a source in its root. -/
def single (stem extension : String) : FileTree := ⟨[([dotted stem extension], .file "x;".toUTF8)], []⟩

/-- The path of that source. -/
def singlePath (stem extension : String) : Path := Path.join ⟨"."⟩ (dotted stem extension)

section Single

variable {stem extension : String}

theorem linkFree_single : (single stem extension).LinkFree := by
  simp [FileTree.LinkFree, single]

variable (hname : IsName (dotted stem extension)) (hstem : stem ≠ "") (hdot : '.' ∉ extension.toList)

include hname

theorem ground_single : Ground ⟨"."⟩ [] (single stem extension) := by
  refine ⟨⟨by simp [single], by simpa [single] using hname, ?_, rfl⟩, linkFree_single, rfl, rfl⟩
  simp only [single, List.forall_mem_singleton]
  rfl

include hstem hdot

theorem found_single : Found (single stem extension) ⟨"."⟩ [] extension (singlePath stem extension) [] stem := by
  refine ⟨rfl, nofun, ?_, hname, hstem, hdot⟩
  intro front hfront
  rw [List.prefix_nil.1 hfront]
  rfl

theorem sources_single {job : Job} (hout : job.toStdout = false) (hshallow : job.settings.recursive = false)
    (hextension : job.settings.sourceExtension = extension) :
    job.sources (single stem extension) ⟨"."⟩ = .ok [singlePath stem extension] := by
  obtain ⟨sources, hsources, hperm⟩ := (ground_single hname).exists_perm_sources hout
  have hnames : (single stem extension).namesUnder 1 [] .folder = [[dotted stem extension]] := rfl
  have hhas : (singlePath stem extension).hasExtension extension = true := by
    rw [Path.hasExtension, singlePath, Path.extension?_join _ hstem hdot hname, decide_eq_true rfl]
  have hfiltered : ([[dotted stem extension]].map (Path.joinAll ⟨"."⟩)).filter (·.hasExtension extension) =
      [singlePath stem extension] := List.filter_cons_of_pos hhas
  rw [hshallow, if_neg Bool.false_ne_true, hnames, hextension, hfiltered] at hperm
  rw [hsources, List.perm_singleton.1 hperm]

/-- The source is read if its name and its path are not too long. -/
theorem toOption_read_single (hsize : (dotted stem extension).utf8ByteSize ≤ nameLimit)
    (hfits : fits (singlePath stem extension) = true) :
    ((single stem extension).read (singlePath stem extension)).toOption = some "x;" := by
  have hplace := (found_single hname hstem hdot).toOption_resolve_beside (ground_single hname) hname .visit
  have hresolve : ((single stem extension).resolve .visit (singlePath stem extension)).toOption =
      some [dotted stem extension] := by
    rw [if_pos hsize] at hplace
    exact hplace.trans (if_pos (by rw [List.all_nil, Bool.and_true]; exact hfits))
  have hnode : (single stem extension).node? [dotted stem extension] = some (.file "x;".toUTF8) := by
    simp [single, FileTree.node?]
  rw [FileTree.toOption_read, FileTree.toOption_readBytes, hresolve, Option.bind_some, hnode]
  rfl

/-- A name that is too long leads nowhere. -/
theorem toOption_resolve_eq_none {name : String} (hother : IsName name) (hlong : nameLimit < name.utf8ByteSize)
    (purpose : FileTree.Purpose) :
    ((single stem extension).resolve purpose (Path.join ⟨"."⟩ name)).toOption = none := by
  have hplace := (found_single hname hstem hdot).toOption_resolve_beside (ground_single hname) hother purpose
  rw [if_neg (Nat.not_le.2 hlong), ite_self] at hplace
  exact hplace

end Single

theorem exists_stem (size : Nat) : ∃ stem : String, stem.utf8ByteSize = size ∧ ∀ c ∈ stem.toList, c = 'a' := by
  induction size with
  | zero => exact ⟨"", rfl, by simp⟩
  | succ size ih =>
    obtain ⟨stem, hsize, htext⟩ := ih
    refine ⟨stem.push 'a', ?_, ?_⟩
    · rw [String.utf8ByteSize_push, hsize]
      rfl
    · simpa [or_imp, forall_and] using htext

end Build

end Offside
