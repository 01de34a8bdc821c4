import Offside.Proofs.Build.Exactness

/-!
# What a build leaves of its sources

A build replaces what stands where the output paths of its sources lead, and nothing else.  A source is kept as long as
none of these paths leads to it; but nothing sees to that.
-/

namespace Offside

open FileTree (Replaces SameWays)
open Offside.Path (lastPart)

variable {tools : Tool.Box}

section Except

variable {ε ε' α β : Type} {x : Except ε α}

theorem bind_eq_ok {f : α → Except ε β} {b : β} : x >>= f = .ok b ↔ ∃ a, x = .ok a ∧ f a = .ok b := by
  cases x <;> simp [bind, Except.bind]

theorem bind_eq_error {f : α → Except ε β} {e : ε} :
    x >>= f = .error e ↔ x = .error e ∨ ∃ a, x = .ok a ∧ f a = .error e := by
  cases x <;> simp [bind, Except.bind]

theorem mapError_eq_error {f : ε → ε'} {e : ε'} :
    x.mapError f = .error e ↔ ∃ cause, x = .error cause ∧ f cause = e := by
  cases x <;> simp [Except.mapError]

theorem mapError_eq_ok {f : ε → ε'} {a : α} : x.mapError f = .ok a ↔ x = .ok a := by
  cases x <;> simp [Except.mapError]

end Except

namespace Job

variable {tree : FileTree}

/-- Nothing is fatal but an output extension that is refused. -/
theorem isFatal_eq_false {job : Job} {path : Path} {failure : Failure}
    (hslash : job.toStdout = true ∨ '/' ∉ job.settings.outputExtension.toList)
    (h : job.compileFile tools tree path = .error failure) : failure.isFatal = false := by
  unfold compileFile at h
  rcases bind_eq_error.1 h with hread | ⟨source, -, hcompile⟩
  · obtain ⟨fault, -, rfl⟩ := mapError_eq_error.1 hread
    rfl
  rcases bind_eq_error.1 hcompile with htext | ⟨⟨text, middle⟩, -, hend⟩
  · obtain ⟨rejection, -, rfl⟩ := mapError_eq_error.1 htext
    rfl
  simp only at hend
  split at hend
  · cases hend
  · rename_i hout
    split at hend
    · rename_i hnone
      have hplain := hslash.resolve_left hout
      simp [Path.withExtension?, hplain] at hnone
    · rcases bind_eq_error.1 hend with hwrite | ⟨written, -, hwritten⟩
      · obtain ⟨fault, -, rfl⟩ := mapError_eq_error.1 hwrite
        rfl
      · cases hwritten

section CompileFile

variable {job : Job} (hkeeps : ∀ step ∈ job.pipeline, ∀ tree text, (step.run tools tree text).2 = tree)

include hkeeps

theorem tree_of_compileText {after : FileTree} {source text : String}
    (h : job.compileText tools tree source = .ok (text, after)) : after = tree := by
  unfold compileText at h
  obtain ⟨script, -, hrun⟩ := bind_eq_ok.1 h
  cases hrun
  exact Pipeline.run_snd hkeeps tree script

/-- A source that is compiled is printed, or it replaces what its output path leads to. -/
theorem cases_compileFile {after : FileTree} {path : Path} {printed : String}
    (h : job.compileFile tools tree path = .ok (after, printed)) :
    after = tree ∨ job.toStdout = false ∧ ∃ place content node, job.outputPlace? tree path = some place ∧
      Node.taking content (tree.node? place) = some node ∧ Replaces tree place node after := by
  unfold compileFile at h
  obtain ⟨source, -, hcompile⟩ := bind_eq_ok.1 h
  obtain ⟨⟨text, middle⟩, htext, hend⟩ := bind_eq_ok.1 hcompile
  have hsame : middle = tree := tree_of_compileText hkeeps (mapError_eq_ok.1 htext)
  simp only [hsame] at hend
  split at hend
  · cases hend
    exact Or.inl rfl
  · rename_i hout
    split at hend
    · cases hend
    · rename_i output houtput
      obtain ⟨written, hwrite, hwritten⟩ := bind_eq_ok.1 hend
      cases hwritten
      obtain ⟨place, node, hplace, hnode, hreplaces⟩ := FileTree.exists_of_write (mapError_eq_ok.1 hwrite)
      refine Or.inr ⟨by simpa using hout, place, text.toUTF8, node, ?_, hnode, hreplaces⟩
      rw [outputPlace?, houtput, Option.bind_some, hplace]

end CompileFile

end Job

namespace Build

variable {path : Path}

/-- What a build of sources has kept of a tree so far. -/
structure Kept (job : Job) (tree : FileTree) (sources : List Path) (now : FileTree) : Prop where
  ways : SameWays now tree
  node : ∀ location, (∀ path ∈ sources, ¬job.Hits tree path location) → now.node? location = tree.node? location
  unchanged : job.toStdout = true → now = tree

theorem Kept.refl (job : Job) (tree : FileTree) (sources : List Path) : Kept job tree sources tree :=
  ⟨.refl tree, fun _ _ => rfl, fun _ => rfl⟩

/-- A source that no output path leads to reads as before. -/
theorem Kept.toOption_readBytes {job : Job} {tree now : FileTree} {sources : List Path} (h : Kept job tree sources now)
    (hfree : ∀ other ∈ sources, ∀ place, job.Hits tree other place →
      (tree.resolve .visit path).toOption ≠ some place) :
    (now.readBytes path).toOption = (tree.readBytes path).toOption := by
  rw [FileTree.toOption_readBytes, FileTree.toOption_readBytes, h.ways.toOption_resolve]
  cases hplace : (tree.resolve .visit path).toOption with
  | none => rfl
  | some place =>
    have hnode := h.node place fun other hother hhits => hfree other hother place hhits hplace
    rw [Option.bind_some, Option.bind_some, hnode]

section Run

variable {job : Job} (hkeeps : ∀ step ∈ job.pipeline, ∀ tree text, (step.run tools tree text).2 = tree)
  {tree : FileTree} (hsound : tree.Sound) {sources : List Path}

include hsound

/-- What is replaced stands where a source hits. -/
theorem Kept.replaces {now after : FileTree} (h : Kept job tree sources now) (hpath : path ∈ sources)
    (hout : job.toStdout = false) {place : Location} (hplace : job.outputPlace? now path = some place)
    {content : ByteArray} {node : Node} (htaken : Node.taking content (now.node? place) = some node)
    (hreplaces : Replaces now place node after) : Kept job tree sources after := by
  rw [job.outputPlace?_congr h.ways] at hplace
  have hfolder : tree.node? place ≠ some .folder := by
    intro hfolder
    have hway := h.ways.way place
    rw [hfolder, Node.way?, Node.way?_eq_folder] at hway
    rw [hway] at htaken
    cases htaken
  obtain ⟨output, -, hresolve⟩ := Option.bind_eq_some_iff.1 hplace
  have hend : Node.way? (tree.node? place) = none :=
    ((hsound.ends_resolve (by decide) hresolve).resolve_left hfolder).1
  have hlink : ∀ target, now.node? place ≠ some (.link target) := by
    intro target hlink
    have hway := h.ways.way place
    rw [hlink, hend] at hway
    cases hway
  refine ⟨h.ways.replaces hreplaces hend (Node.way?_of_taking htaken hlink).2, ?_, ?_⟩
  · intro location hfree
    have hne : location ≠ place := by
      rintro rfl
      exact hfree path hpath ⟨hplace, hfolder⟩
    rw [hreplaces.node, if_neg hne]
    exact h.node location hfree
  · intro hstdout
    rw [hout] at hstdout
    cases hstdout

include hkeeps

theorem Kept.next {build after : Build} (h : Kept job tree sources build.tree) (hpath : path ∈ sources)
    (hafter : Build.next tools job build path = .ok after) : Kept job tree sources after.tree := by
  unfold Build.next at hafter
  split at hafter
  · rename_i written text hcompile
    cases hafter
    rcases Job.cases_compileFile hkeeps hcompile with rfl | ⟨hout, place, content, node, hplace, htaken, hreplaces⟩
    · exact h
    · exact h.replaces hsound hpath hout hplace htaken hreplaces
  · split at hafter
    · cases hafter
    · cases hafter
      exact h

theorem Kept.files {rest : List Path} {build after : Build} (h : Kept job tree sources build.tree)
    (hrest : ∀ path ∈ rest, path ∈ sources) (hafter : rest.foldlM (Build.next tools job) build = .ok after) :
    Kept job tree sources after.tree := by
  induction rest generalizing build with
  | nil =>
    cases hafter
    exact h
  | cons path rest ih =>
    obtain ⟨hpath, hrest⟩ := List.forall_mem_cons.1 hrest
    rw [List.foldlM_cons] at hafter
    obtain ⟨middle, hmiddle, hend⟩ := bind_eq_ok.1 hafter
    exact ih (h.next hkeeps hsound hpath hmiddle) hrest hend

omit hsound hkeeps in
/-- A build comes to its end if its output extension is not refused. -/
theorem exists_build (hslash : job.toStdout = true ∨ '/' ∉ job.settings.outputExtension.toList) (sources : List Path)
    (build : Build) : ∃ after, sources.foldlM (Build.next tools job) build = .ok after := by
  induction sources generalizing build with
  | nil => exact ⟨build, rfl⟩
  | cons path rest ih =>
    obtain ⟨middle, hmiddle⟩ : ∃ middle, Build.next tools job build path = .ok middle := by
      cases hcompile : job.compileFile tools build.tree path with
      | ok compiled => exact ⟨_, by rw [Build.next, hcompile]⟩
      | error failure =>
        have hfatal := Job.isFatal_eq_false hslash hcompile
        exact ⟨{ build with failures := build.failures ++ [failure] }, by simp [Build.next, hcompile, hfatal]⟩
    obtain ⟨after, hafter⟩ := ih middle
    refine ⟨after, ?_⟩
    rw [List.foldlM_cons, hmiddle]
    exact hafter

end Run

end Build

/-! ## Files as targets -/

section File

variable {job : Job} {tree : FileTree} {target : Path} (hfile : tree.isFile target = true)

include hfile

theorem Job.sources_eq : job.sources tree target = .ok [target] := by
  rw [sources, if_pos hfile]

variable (hsound : tree.Sound)

include hsound

/-- Without links a file is hit only by an output path that is its own path. -/
theorem not_hits_of_file (hlinks : tree.LinkFree)
    (hother : target.withExtension? job.settings.outputExtension ≠ some target) {place : Location}
    (hhits : job.Hits tree target place) : (tree.resolve .visit target).toOption ≠ some place := by
  intro hplace
  obtain ⟨output, houtput, hcreate⟩ := Option.bind_eq_some_iff.1 hhits.outputPlace
  have hslash : '/' ∉ job.settings.outputExtension.toList := by
    intro hslash
    simp [Path.withExtension?, hslash] at houtput
  have hlast := ((hsound.ends_resolve (by decide) hplace).resolve_left hhits.node).2
  obtain ⟨front, name, hstep, rfl⟩ := Path.exists_eq_join hlast
  obtain ⟨above, rfl⟩ := hlinks.exists_concat_of_resolve hsound hstep hplace hhits.node
  obtain ⟨_, content, hresolve, hcontent⟩ := FileTree.exists_file hfile
  rw [hplace, Option.some.injEq] at hresolve
  rw [← hresolve] at hcontent
  have hname : Path.IsName name :=
    hsound.isName _ (FileTree.mem_nodes_of_node? (by simp) hcontent) name (by simp)
  obtain ⟨other, hstep', hexchanged⟩ := front.exists_withExtension?_join hname hslash
  rw [hexchanged, Option.some.injEq] at houtput
  rw [← houtput] at hcreate
  obtain ⟨above', heq⟩ := hlinks.exists_concat_of_resolve hsound hstep' hcreate hhits.node
  have hsame := List.singleton_inj.1 (List.append_inj' heq rfl).2
  rw [hexchanged, ← hsame] at hother
  exact hother rfl

/-- A file whose output path is its own path is replaced by its text. -/
theorem exists_run_of_file (hout : job.toStdout = false)
    (hown : target.withExtension? job.settings.outputExtension = some target) {source text : String}
    (hread : (tree.read target).toOption = some source) (htext : job.compileText tools tree source = .ok (text, tree)) :
    ∃ build, Build.run tools job tree target = .ok build ∧ (build.tree.read target).toOption = some text := by
  obtain ⟨place, content, hplace, hcontent⟩ := FileTree.exists_file hfile
  have hcreate := hsound.toOption_resolve_create hplace (by rw [hcontent]; nofun)
  have htaken : Node.taking text.toUTF8 (tree.node? place) = some (.file text.toUTF8) := by
    rw [hcontent]
    rfl
  obtain ⟨after, hwrite, hreplaces⟩ := FileTree.exists_write hcreate htaken
  have hways : SameWays after tree := (SameWays.refl tree).replaces hreplaces (by rw [hcontent]; rfl) rfl
  refine ⟨{ tree := after, compiled := 1 }, ?_, ?_⟩
  · simp [Build.run, Job.sources_eq hfile, Build.files, Build.next, Job.compileFile_eq hout hread htext hown, hwrite,
      Except.mapError, Except.map, bind, Except.bind, pure, Except.pure]
  · rw [FileTree.toOption_read, FileTree.toOption_readBytes, hways.toOption_resolve, hplace, Option.bind_some,
      hreplaces.node, if_pos rfl]
    simp [Node.content?, String.fromUTF8?, String.fromUTF8, text.isValidUTF8]

end File

/-- Without links the sources in a folder are not hit if they have not the extension that is last in the output. -/
theorem not_hits_of_folder {job : Job} (hout : job.toStdout = false) (hempty : job.settings.outputExtension ≠ "")
    (hother : lastPart job.settings.outputExtension.toList ≠ job.settings.sourceExtension.toList) {tree : FileTree}
    (hsound : tree.Sound) (hlinks : tree.LinkFree) {target : Path} (htarget : tree.isFolder target = true)
    {sources : List Path} (hsources : job.sources tree target = .ok sources) :
    ∀ path ∈ sources, ∀ source ∈ sources, ∀ place, job.Hits tree path place →
      (tree.resolve .visit source).toOption ≠ some place := by
  intro path hpath source hsource place hhits
  have hslash : '/' ∉ job.settings.outputExtension.toList := by
    intro hslash
    obtain ⟨output, houtput, -⟩ := Option.bind_eq_some_iff.1 hhits.outputPlace
    simp [Path.withExtension?, hslash] at houtput
  obtain ⟨folder, hground⟩ := exists_ground hsound hlinks htarget
  obtain ⟨found, hfound, hperm⟩ := hground.exists_perm_sources hout
  rw [hfound, Except.ok.injEq] at hsources
  rw [← hsources] at hpath hsource
  exact not_hits_of_found hground ⟨hempty, hslash, hother⟩
    (fun path hpath => hground.exists_found (hperm.mem_iff.1 hpath)) path hpath source hsource place hhits

namespace Build

/-- A build that prints changes nothing.  One that writes keeps each source that no output path leads to.  Without links
that is so for a file whose output path is another one, and for the sources in a folder if the extension that is last in
the output is not theirs.  A file whose output path is its own path is replaced by its text. -/
theorem sources_after_run {job : Job}
    (hkeeps : ∀ step ∈ job.pipeline, ∀ tree text, (step.run tools tree text).2 = tree) {tree : FileTree}
    (hsound : tree.Sound) {target : Path} {sources : List Path} (hsources : job.sources tree target = .ok sources) :
    (job.toStdout = true ∨ '/' ∉ job.settings.outputExtension.toList →
      ∃ build, Build.run tools job tree target = .ok build) ∧
    ∀ build, Build.run tools job tree target = .ok build →
      (job.toStdout = true → build.tree = tree) ∧
      (∀ path ∈ sources,
        (∀ other ∈ sources, ∀ place, job.Hits tree other place → (tree.resolve .visit path).toOption ≠ some place) →
        (build.tree.readBytes path).toOption = (tree.readBytes path).toOption) ∧
      (tree.LinkFree → tree.isFile target = true →
        target.withExtension? job.settings.outputExtension ≠ some target →
        (build.tree.readBytes target).toOption = (tree.readBytes target).toOption) ∧
      (tree.LinkFree → tree.isFolder target = true → job.settings.outputExtension ≠ "" →
        lastPart job.settings.outputExtension.toList ≠ job.settings.sourceExtension.toList →
        ∀ path ∈ sources, (build.tree.readBytes path).toOption = (tree.readBytes path).toOption) ∧
      (job.toStdout = false → tree.isFile target = true →
        target.withExtension? job.settings.outputExtension = some target →
        ∀ source text, (tree.read target).toOption = some source →
          job.compileText tools tree source = .ok (text, tree) → (build.tree.read target).toOption = some text) := by
  have hrun : Build.run tools job tree target = sources.foldlM (Build.next tools job) { tree } := by
    rw [Build.run, hsources]
    rfl
  refine ⟨fun hslash => by rw [hrun]; exact exists_build hslash sources _, fun build hbuild => ?_⟩
  have hkept : Kept job tree sources build.tree :=
    (Kept.refl job tree sources).files hkeeps hsound (fun _ hpath => hpath) (hrun.symm.trans hbuild)
  refine ⟨hkept.unchanged, fun path _ => hkept.toOption_readBytes, ?_, ?_, ?_⟩
  · intro hlinks hfile hother
    rw [Job.sources_eq hfile, Except.ok.injEq] at hsources
    apply hkept.toOption_readBytes
    intro path hpath place hhits
    rw [← hsources, List.mem_singleton] at hpath
    rw [hpath] at hhits
    exact not_hits_of_file hfile hsound hlinks hother hhits
  · intro hlinks hfolder hempty hother path hpath
    by_cases hout : job.toStdout = true
    · rw [hkept.unchanged hout]
    · have hfree := not_hits_of_folder (by simpa using hout) hempty hother hsound hlinks hfolder hsources
      exact hkept.toOption_readBytes fun other hmem place hhits => hfree other hmem path hpath place hhits
  · intro hout hfile hown source text hread htext
    obtain ⟨after, hafter, hreplaced⟩ := exists_run_of_file hfile hsound hout hown hread htext
    rw [hbuild, Except.ok.injEq] at hafter
    rw [hafter]
    exact hreplaced

/-- A source beside a link to it. -/
theorem sources_after_run_linked :
    let tree : FileTree := ⟨[(["a.csc"], .file "x;".toUTF8), (["b.js"], .link "a.csc")], []⟩
    let job : Job := ⟨.initial, [], false⟩
    tree.Sound ∧ job.sources tree ⟨"a.csc"⟩ = .ok [⟨"a.csc"⟩] ∧
      ∃ build, Build.run Tool.Box.empty job tree ⟨"a.csc"⟩ = .ok build ∧
        (build.tree.readBytes ⟨"a.csc"⟩).toOption = some "x;".toUTF8 := by
  intro tree job
  have hsound : tree.Sound := by
    refine ⟨by decide, by decide, ?_, rfl⟩
    simp only [tree, List.forall_mem_cons]
    exact ⟨rfl, rfl, List.forall_mem_nil _⟩
  have hsources : job.sources tree ⟨"a.csc"⟩ = .ok [⟨"a.csc"⟩] := Job.sources_eq (by decide +kernel)
  have hplace : (tree.resolve .visit ⟨"a.csc"⟩).toOption = some ["a.csc"] := by decide +kernel
  have houtput : job.outputPlace? tree ⟨"a.csc"⟩ = some ["a.js"] := by decide +kernel
  have hkeeps : ∀ step ∈ job.pipeline, ∀ tree text, (step.run Tool.Box.empty tree text).2 = tree :=
    List.forall_mem_nil _
  have hafter := sources_after_run hkeeps hsound hsources
  obtain ⟨build, hbuild⟩ := hafter.1 (Or.inr (by decide))
  refine ⟨hsound, hsources, build, hbuild, ?_⟩
  have hkept := (hafter.2 build hbuild).2.1 ⟨"a.csc"⟩ List.mem_cons_self fun other hother place hhits hmeets => by
    have hhit := hhits.outputPlace
    rw [List.mem_singleton.1 hother, houtput] at hhit
    rw [hplace, ← hhit] at hmeets
    exact absurd hmeets (by decide)
  rw [hkept, FileTree.toOption_readBytes, hplace]
  rfl

/-- Not every source is kept: a file with the output extension is its own output. -/
theorem exists_source_replaced :
    let tree : FileTree := ⟨[(["a.js"], .file "x;".toUTF8)], []⟩
    let job : Job := ⟨.initial, [], false⟩
    tree.Sound ∧ tree.LinkFree ∧ job.sources tree ⟨"a.js"⟩ = .ok [⟨"a.js"⟩] ∧
      (tree.read ⟨"a.js"⟩).toOption = some "x;" ∧
      ∃ build, Build.run Tool.Box.empty job tree ⟨"a.js"⟩ = .ok build ∧
        (build.tree.read ⟨"a.js"⟩).toOption = some (Job.banner ++ "\"use strict\";\nx;\n") := by
  intro tree job
  have hsound : tree.Sound := by
    refine ⟨by decide, by decide, ?_, rfl⟩
    simp only [tree, List.forall_mem_singleton]
    rfl
  have hlinks : tree.LinkFree := by
    simp [FileTree.LinkFree, tree]
  have hfile : tree.isFile ⟨"a.js"⟩ = true := by decide +kernel
  have hread : (tree.read ⟨"a.js"⟩).toOption = some "x;" := by decide +kernel
  have hcompile : (compile "x;").toOption = some "\"use strict\";\nx;\n" := by decide +kernel
  have htext : job.compileText Tool.Box.empty tree "x;" = .ok (Job.banner ++ "\"use strict\";\nx;\n", tree) := by
    have hfollows : job.pipeline.Follows Tool.Box.empty fun _ _ => none := List.forall_mem_nil _
    rw [Job.compileText_eq hfollows]
    cases hscript : compile "x;" with
    | error rejection => simp [hscript, Except.toOption] at hcompile
    | ok script =>
      rw [hscript] at hcompile
      cases hcompile
      rfl
  exact ⟨hsound, hlinks, Job.sources_eq hfile, hread,
    exists_run_of_file hfile hsound rfl (by decide +kernel) hread htext⟩

end Build

end Offside
