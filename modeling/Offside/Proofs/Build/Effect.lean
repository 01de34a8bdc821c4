import Offside.Build
import Offside.Proofs.Files.Resolution

/-!
# What compiling a file changes

A file that is compiled replaces what stands at one place, or it fails and nothing changes.  Which place it is and what
stands there afterwards can be told from the tree before, if the programs that the text goes through depend on nothing
but the text.
-/

namespace Offside

open FileTree (Replaces SameWays)

variable {tools : Tool.Box} {process : Step → String → Option String}

/-! ## Post-processing -/

namespace Pipeline

/-- The programs are partial functions of the text, and they leave the tree as it is. -/
def Follows (tools : Tool.Box) (process : Step → String → Option String) (pipeline : Pipeline) : Prop :=
  ∀ step ∈ pipeline, ∀ tree text, ∃ result,
    step.run tools tree text = (result, tree) ∧ result.toOption = process step text

/-- What comes of a text.  Where a function gives nothing the text stays. -/
def result (process : Step → String → Option String) (pipeline : Pipeline) (text : String) : String :=
  pipeline.foldl (fun text step => (process step text).getD text) text

theorem Follows.run_eq {pipeline : Pipeline} (h : pipeline.Follows tools process) (tree : FileTree) (text : String) :
    pipeline.run tools tree text = (pipeline.result process text, tree) := by
  induction pipeline generalizing text with
  | nil => rfl
  | cons step pipeline ih =>
    obtain ⟨hstep, hrest⟩ := List.forall_mem_cons.1 h
    obtain ⟨result, hrun, hresult⟩ := hstep tree text
    have hnext := ih hrest ((process step text).getD text)
    simp only [run, Pipeline.result] at hnext
    simp only [run, Pipeline.result, List.foldl_cons, hrun, hresult, hnext]

/-- Programs that leave the tree as it is do so one after the other. -/
theorem run_snd {pipeline : Pipeline} (h : ∀ step ∈ pipeline, ∀ tree text, (step.run tools tree text).2 = tree)
    (tree : FileTree) (text : String) : (pipeline.run tools tree text).2 = tree := by
  induction pipeline generalizing text with
  | nil => rfl
  | cons step pipeline ih =>
    obtain ⟨hstep, hrest⟩ := List.forall_mem_cons.1 h
    have hnext := ih hrest ((step.run tools tree text).1.toOption.getD text)
    simp only [run] at hnext
    simp only [run, List.foldl_cons, hstep tree text, hnext]

end Pipeline

namespace Job

variable {job : Job} {tree : FileTree} {path : Path} {node : Node}

/-- The text that is written for a script. -/
def product (process : Step → String → Option String) (job : Job) (script : String) : String :=
  let text := job.pipeline.result process script
  if job.settings.banner then banner ++ text else text

theorem compileText_eq (h : job.pipeline.Follows tools process) (tree : FileTree) (source : String) :
    job.compileText tools tree source = (compile source).map fun script => (job.product process script, tree) := by
  unfold compileText
  cases compile source with
  | error rejection => rfl
  | ok script =>
    simp only [bind, Except.bind, h.run_eq tree script]
    rfl

/-- A source that is compiled is written to the output path. -/
theorem compileFile_eq (hout : job.toStdout = false) {output : Path}
    {source script : String} (hread : (tree.read path).toOption = some source)
    (htext : job.compileText tools tree source = .ok (script, tree))
    (houtput : path.withExtension? job.settings.outputExtension = some output) :
    job.compileFile tools tree path = ((tree.write output script).mapError (.file output)).map (·, "") := by
  have hsource : tree.read path = .ok source := by
    cases hread' : tree.read path <;> simp_all [Except.toOption]
  unfold compileFile
  simp only [hsource, htext, hout, houtput, Except.mapError, bind, Except.bind]
  cases tree.write output script <;> rfl

/-- The place that the output path of a source leads to. -/
def outputPlace? (job : Job) (tree : FileTree) (path : Path) : Option Location :=
  (path.withExtension? job.settings.outputExtension).bind fun output => (tree.resolve .create output).toOption

/-- The text that is written for a source. -/
def text? (process : Step → String → Option String) (job : Job) (tree : FileTree) (path : Path) : Option String :=
  ((tree.read path).toOption.bind fun source => (compile source).toOption).map (job.product process)

/-- What compiling a file replaces: a place, and what stands there afterwards. -/
def effect? (process : Step → String → Option String) (job : Job) (tree : FileTree) (path : Path) :
    Option (Location × Node) := do
  let text ← job.text? process tree path
  let place ← job.outputPlace? tree path
  let node ← Node.taking text.toUTF8 (tree.node? place)
  return (place, node)

theorem effect?_eq_some {place : Location} :
    job.effect? process tree path = some (place, node) ↔ ∃ text, job.text? process tree path = some text ∧
      job.outputPlace? tree path = some place ∧ Node.taking text.toUTF8 (tree.node? place) = some node := by
  simp only [effect?, bind, pure, Option.bind_eq_some_iff, Option.some.injEq, Prod.mk.injEq]
  constructor
  · rintro ⟨text, htext, _, hplace, _, hnode, rfl, rfl⟩
    exact ⟨text, htext, hplace, hnode⟩
  · rintro ⟨text, htext, hplace, hnode⟩
    exact ⟨text, htext, place, hplace, node, hnode, rfl, rfl⟩

theorem text?_eq_some {text : String} :
    job.text? process tree path = some text ↔ ∃ source script, (tree.read path).toOption = some source ∧
      (compile source).toOption = some script ∧ job.product process script = text := by
  simp only [text?, Option.map_eq_some_iff, Option.bind_eq_some_iff]
  constructor
  · rintro ⟨script, ⟨source, hsource, hscript⟩, htext⟩
    exact ⟨source, script, hsource, hscript, htext⟩
  · rintro ⟨source, script, hsource, hscript, htext⟩
    exact ⟨script, ⟨source, hsource, hscript⟩, htext⟩

/-- The output path of a source leads to a place that can be replaced. -/
structure Hits (job : Job) (tree : FileTree) (path : Path) (place : Location) : Prop where
  outputPlace : job.outputPlace? tree path = some place
  node : tree.node? place ≠ some .folder

theorem hits_of_effect? {place : Location}
    (h : job.effect? process tree path = some (place, node)) : job.Hits tree path place := by
  obtain ⟨text, -, hplace, htaken⟩ := effect?_eq_some.1 h
  refine ⟨hplace, fun hfolder => ?_⟩
  rw [hfolder] at htaken
  cases htaken

/-- A source that has a text leads somewhere. -/
theorem exists_place_of_text? {text : String}
    (h : job.text? process tree path = some text) : ∃ place, (tree.resolve .visit path).toOption = some place := by
  obtain ⟨source, _, hsource, -, -⟩ := text?_eq_some.1 h
  rw [FileTree.toOption_read, FileTree.toOption_readBytes] at hsource
  obtain ⟨content, hcontent, -⟩ := Option.bind_eq_some_iff.1 hsource
  obtain ⟨place, hplace, -⟩ := Option.bind_eq_some_iff.1 hcontent
  exact ⟨place, hplace⟩

section CompileFile

variable {job : Job} (hfollows : job.pipeline.Follows tools process) (hout : job.toStdout = false) {tree : FileTree}
  {path : Path}

include hfollows hout

/-- The text of a source is written to its output path. -/
theorem exists_write {place : Location} (h : job.effect? process tree path = some (place, node)) :
    ∃ after output text, job.compileFile tools tree path = .ok (after, "") ∧ tree.write output text = .ok after ∧
      (tree.resolve .create output).toOption = some place ∧ Replaces tree place node after := by
  obtain ⟨text, htext, hplace, hnode⟩ := effect?_eq_some.1 h
  obtain ⟨source, script, hsource, hscript, rfl⟩ := text?_eq_some.1 htext
  obtain ⟨output, houtput, hresolve⟩ := Option.bind_eq_some_iff.1 hplace
  obtain ⟨after, hwrite, hafter⟩ := FileTree.exists_write hresolve hnode
  have hcompiled : job.compileText tools tree source = .ok (job.product process script, tree) := by
    rw [compileText_eq hfollows]
    cases hcompile : compile source <;> simp_all [Except.toOption, Except.map]
  refine ⟨after, output, job.product process script, ?_, hwrite, hresolve, hafter⟩
  rw [compileFile_eq hout hsource hcompiled houtput, hwrite]
  rfl

theorem exists_compileFile {place : Location} (h : job.effect? process tree path = some (place, node)) :
    ∃ after, job.compileFile tools tree path = .ok (after, "") ∧ Replaces tree place node after := by
  obtain ⟨after, _, _, hafter, -, -, hreplaces⟩ := exists_write hfollows hout h
  exact ⟨after, hafter, hreplaces⟩

theorem exists_compileFile_error (hslash : '/' ∉ job.settings.outputExtension.toList)
    (h : job.effect? process tree path = none) :
    ∃ failure, job.compileFile tools tree path = .error failure ∧ failure.isFatal = false := by
  cases hread : tree.read path with
  | error fault => exact ⟨.file path fault, by simp [compileFile, hread, Except.mapError, bind, Except.bind], rfl⟩
  | ok source =>
    have hsource : (tree.read path).toOption = some source := by rw [hread]; rfl
    cases hcompile : compile source with
    | error rejection =>
      refine ⟨.source path rejection, ?_, rfl⟩
      have hrejected : job.compileText tools tree source = .error rejection := by
        rw [compileText_eq hfollows, hcompile]
        rfl
      simp [compileFile, hread, hrejected, Except.mapError, bind, Except.bind]
    | ok script =>
      have hcompiled : job.compileText tools tree source = .ok (job.product process script, tree) := by
        rw [compileText_eq hfollows, hcompile]
        rfl
      obtain ⟨output, houtput⟩ : ∃ output, path.withExtension? job.settings.outputExtension = some output := by
        exact ⟨_, if_neg (by simpa using hslash)⟩
      have htext : job.text? process tree path = some (job.product process script) :=
        text?_eq_some.2 ⟨source, script, hsource, by rw [hcompile]; rfl, rfl⟩
      have hwrite : ((tree.resolve .create output).toOption.bind fun place =>
          Node.taking (job.product process script).toUTF8 (tree.node? place)) = none := by
        rw [Option.eq_none_iff_forall_ne_some]
        intro node hnode
        obtain ⟨place, hplace, htaken⟩ := Option.bind_eq_some_iff.1 hnode
        have heffect := effect?_eq_some.2 ⟨_, htext, Option.bind_eq_some_iff.2 ⟨output, houtput, hplace⟩, htaken⟩
        rw [h] at heffect
        cases heffect
      obtain ⟨fault, hfault⟩ := FileTree.exists_write_error hwrite
      refine ⟨.file output fault, ?_, rfl⟩
      rw [compileFile_eq hout hsource hcompiled houtput, hfault]
      rfl

end CompileFile

end Job

/-! ## Builds of sources that do not meet -/

namespace Job

/-- The output path of a source leads to the same place as long as the ways are the same. -/
theorem outputPlace?_congr (job : Job) {now tree : FileTree} (hways : SameWays now tree) (path : Path) :
    job.outputPlace? now path = job.outputPlace? tree path := by
  simp only [outputPlace?, hways.toOption_resolve]

/-- The effect of a source stays the same where what it reads and what it replaces is untouched. -/
theorem effect?_congr (process : Step → String → Option String) {job : Job} {now tree : FileTree}
    (hways : SameWays now tree) {path : Path}
    (hsource : ∀ place, (tree.resolve .visit path).toOption = some place → now.node? place = tree.node? place)
    (houtput : ∀ place, job.outputPlace? tree path = some place → now.node? place = tree.node? place) :
    job.effect? process now path = job.effect? process tree path := by
  have htext : job.text? process now path = job.text? process tree path := by
    rw [text?, text?, FileTree.toOption_read, FileTree.toOption_read, FileTree.toOption_readBytes,
      FileTree.toOption_readBytes, hways.toOption_resolve]
    cases hplace : (tree.resolve .visit path).toOption with
    | none => rfl
    | some place => rw [Option.bind_some, Option.bind_some, hsource place hplace]
  simp only [effect?, htext, job.outputPlace?_congr hways]
  cases hout : job.outputPlace? tree path with
  | none => rfl
  | some place => simp only [bind, Option.bind_some, houtput place hout]

/-- No source is replaced, and no two sources replace the same. -/
structure Apart (process : Step → String → Option String) (job : Job) (tree : FileTree) (sources : List Path) :
    Prop where
  source : ∀ path ∈ sources, ∀ other ∈ sources, ∀ place node, job.effect? process tree path = some (place, node) →
    (tree.resolve .visit other).toOption ≠ some place
  output : ∀ path ∈ sources, ∀ other ∈ sources, path ≠ other → ∀ place node,
    job.effect? process tree path = some (place, node) → job.outputPlace? tree other ≠ some place

end Job

namespace Build

variable {done : List Path} {build : Build}

/-- What a build has done with some of the sources. -/
structure Done (process : Step → String → Option String) (job : Job) (tree : FileTree) (done : List Path)
    (build : Build) : Prop where
  ways : SameWays build.tree tree
  node : ∀ location, build.tree.node? location =
    ((done.filterMap (job.effect? process tree)).lookup location).or (tree.node? location)
  compiled : build.compiled = (done.filterMap (job.effect? process tree)).length
  counted : build.compiled + build.failed = done.length

/-- The sources that fail are those without an effect. -/
theorem Done.failed_eq {job : Job} {tree : FileTree} (h : Done process job tree done build) :
    build.failed = done.countP fun path => (job.effect? process tree path).isNone := by
  have hcounted := h.counted
  have hsplit := List.length_eq_countP_add_countP (fun path => (job.effect? process tree path).isSome) (l := done)
  have hnot : (done.countP fun path => (job.effect? process tree path).isNone) =
      done.countP fun path => decide ¬(job.effect? process tree path).isSome = true := by
    congr 1
    funext path
    cases job.effect? process tree path <;> rfl
  rw [h.compiled, List.length_filterMap_eq_countP] at hcounted
  omega

theorem lookup_effects_eq_none {job : Job} {tree : FileTree} {location : Location}
    (h : ∀ path ∈ done, ∀ node, job.effect? process tree path ≠ some (location, node)) :
    (done.filterMap (job.effect? process tree)).lookup location = none := by
  rw [List.lookup_eq_none_iff]
  intro entry hentry
  obtain ⟨path, hpath, heffect⟩ := List.mem_filterMap.1 hentry
  have hne : entry.1 ≠ location := fun heq => h path hpath entry.2 (by rw [heffect, ← heq])
  simpa using Ne.symm hne

section Run

variable {job : Job} (hfollows : job.pipeline.Follows tools process) (hout : job.toStdout = false)
  (hslash : '/' ∉ job.settings.outputExtension.toList) {tree : FileTree} (hlinks : tree.LinkFree)
  {sources : List Path} (hapart : job.Apart process tree sources)

include hfollows hout hslash hlinks hapart

theorem Done.next (h : Done process job tree done build)
    (hdone : ∀ path ∈ done, path ∈ sources) {path : Path} (hpath : path ∈ sources) (hnew : path ∉ done) :
    ∃ after, Build.next tools job build path = .ok after ∧ Done process job tree (done ++ [path]) after := by
  have hsource : ∀ place, (tree.resolve .visit path).toOption = some place →
      build.tree.node? place = tree.node? place := by
    intro place hplace
    rw [h.node, lookup_effects_eq_none, Option.none_or]
    exact fun other hother node heffect => hapart.source other (hdone other hother) path hpath place node heffect hplace
  have hfree : ∀ place, job.outputPlace? tree path = some place →
      (done.filterMap (job.effect? process tree)).lookup place = none := by
    intro place hplace
    apply lookup_effects_eq_none
    intro other hother node heffect
    exact hapart.output other (hdone other hother) path hpath (fun heq => hnew (heq ▸ hother)) place node heffect hplace
  have houtput : ∀ place, job.outputPlace? tree path = some place → build.tree.node? place = tree.node? place := by
    intro place hplace
    rw [h.node, hfree place hplace, Option.none_or]
  have hsame := Job.effect?_congr process h.ways hsource houtput
  cases heffect : job.effect? process tree path with
  | none =>
    rw [heffect] at hsame
    obtain ⟨failure, hfailure, hfatal⟩ := Job.exists_compileFile_error hfollows hout hslash hsame
    refine ⟨{ build with failures := build.failures ++ [failure] }, ?_, ?_⟩
    · rw [Build.next, hfailure]
      simp [hfatal]
    · have hmore : (done ++ [path]).filterMap (job.effect? process tree) =
          done.filterMap (job.effect? process tree) := by simp [heffect]
      refine ⟨h.ways, ?_, ?_, ?_⟩
      · rw [hmore]
        exact h.node
      · rw [hmore]
        exact h.compiled
      · have hcounted := h.counted
        simp only [Build.failed, List.length_append, List.length_singleton] at hcounted ⊢
        omega
  | some found =>
    obtain ⟨place, node⟩ := found
    rw [heffect] at hsame
    obtain ⟨after, hafter, hreplaces⟩ := Job.exists_compileFile hfollows hout hsame
    obtain ⟨text, -, hplace, htaken⟩ := Job.effect?_eq_some.1 heffect
    have hway := Node.way?_of_taking htaken (hlinks.node?_ne_link place)
    refine ⟨{ build with tree := after, printed := build.printed ++ "", compiled := build.compiled + 1 }, ?_, ?_⟩
    · rw [Build.next, hafter]
    · have hmore : (done ++ [path]).filterMap (job.effect? process tree) =
          done.filterMap (job.effect? process tree) ++ [(place, node)] := by simp [heffect]
      refine ⟨h.ways.replaces hreplaces hway.1 hway.2, ?_, ?_, ?_⟩
      · intro location
        rw [hmore, hreplaces.node, List.lookup_append, h.node, FileTree.lookup_cons]
        by_cases hhere : location = place
        · simp [hhere, hfree place hplace]
        · simp [hhere]
      · rw [hmore, List.length_append, ← h.compiled]
        rfl
      · have hcounted := h.counted
        simp only [Build.failed, List.length_append, List.length_singleton] at hcounted ⊢
        omega

theorem Done.files {rest : List Path} (h : Done process job tree done build)
    (hall : ∀ path ∈ done ++ rest, path ∈ sources) (hnodup : (done ++ rest).Nodup) :
    ∃ after, rest.foldlM (Build.next tools job) build = .ok after ∧ Done process job tree (done ++ rest) after := by
  induction rest generalizing done build with
  | nil => exact ⟨build, rfl, by simpa using h⟩
  | cons path rest ih =>
    have hpath : path ∈ sources := hall path (by simp)
    have hnew : path ∉ done := fun hmem => (List.nodup_append.1 hnodup).2.2 path hmem path List.mem_cons_self rfl
    obtain ⟨middle, hmiddle, hdone⟩ := Done.next hfollows hout hslash hlinks hapart h
      (fun other hother => hall other (List.mem_append_left _ hother)) hpath hnew
    have hassoc : done ++ path :: rest = done ++ [path] ++ rest := by simp
    rw [hassoc] at hall hnodup ⊢
    obtain ⟨after, hafter, hend⟩ := ih hdone hall hnodup
    refine ⟨after, ?_, hend⟩
    rw [List.foldlM_cons, hmiddle]
    exact hafter

/-- What a build does does not depend on the order of the sources. -/
theorem exists_files {order : List Path} (horder : order.Perm sources) (hnodup : sources.Nodup) :
    ∃ build, Build.files tools job tree order = .ok build ∧ Done process job tree order build := by
  have hstart : Done process job tree [] { tree } := ⟨.refl tree, fun _ => rfl, rfl, rfl⟩
  exact Done.files hfollows hout hslash hlinks hapart hstart (fun path hpath => horder.subset hpath)
    (horder.nodup_iff.2 hnodup)

end Run

end Build

end Offside
