import Offside.Watch
import Offside.Proofs.Build.Exactness
import Offside.Proofs.Files.Edits

/-!
# Watching keeps outputs up to date

The output of a source is settled if compiling the source again would leave it as it is.  The first build settles all
of them.  A change that is seen settles the output of its own source again and leaves the others, because no output is
at the place of a source and no two sources have the same output.  So after any history of such changes another build
leaves everything as it is.
-/

namespace Offside

open FileTree (Edited)
open Offside.Path (IsName dotted lastPart)

variable {tools : Tool.Box} {process : Step → String → Option String} {job : Job} {target : Path} {top : Location}
  {tree now : FileTree} {names : List String} {node : Node}

/-! ## Files by names -/

namespace FileTree

variable {location : Location} {node : Node}

/-- Without links, names lead where they say. -/
theorem Walk.eq_append (hlinks : tree.LinkFree) {purpose : Purpose} {links : Nat} {folder place : Location}
    {steps : List String} (h : Walk tree purpose links folder steps place) (hnames : ∀ step ∈ steps, IsName step) :
    place = folder ++ steps := by
  induction h with
  | done => rw [List.append_nil]
  | stay hstay =>
    have hname := hnames _ List.mem_cons_self
    exact absurd hstay (not_or.2 ⟨hname.ne_empty, hname.ne_here⟩)
  | up hup => exact absurd hup (hnames _ List.mem_cons_self).ne_parent
  | stop => rfl
  | enter _ _ _ _ ih => rw [ih fun step hstep => hnames step (List.mem_cons_of_mem _ hstep), ← List.append_cons]
  | follow _ _ hway => exact absurd (Node.way?_eq_link.1 hway) (hlinks.node?_ne_link _ _)

end FileTree

/-! ## Sources of a folder -/

theorem Ground.edited (h : Ground target top tree) {spot : Location} (hedited : Edited tree spot now) :
    Ground target top now :=
  ⟨hedited.sound, hedited.linkFree, hedited.toOption_resolve h.linkFree h.target h.folder, hedited.folder h.folder⟩

/-- Names of sources: one, or more if the job is recursive, and the last has the extension. -/
structure Watched (job : Job) (target : Path) (names : List String) : Prop where
  isName : ∀ name ∈ names, IsName name
  depth : names.length = 1 ∨ job.settings.recursive = true ∧ names ≠ []
  extension : (target.joinAll names).hasExtension job.settings.sourceExtension = true

/-- Names that lead to a source. -/
structure IsSource (job : Job) (target : Path) (top : Location) (tree : FileTree) (names : List String) : Prop where
  watched : Watched job target names
  file : ∃ content, tree.node? (top ++ names) = some (.file content)

theorem Watched.ne_nil (h : Watched job target names) : names ≠ [] := by
  rintro rfl
  rcases h.depth with hlength | ⟨-, hne⟩
  · cases hlength
  · exact hne rfl

theorem Watched.exists_found (h : Watched job target names) :
    ∃ front stem, names = front ++ [dotted stem job.settings.sourceExtension] ∧
      '.' ∉ job.settings.sourceExtension.toList ∧
      ∀ {top : Location} {tree : FileTree} {node : Node}, tree.Sound → tree.node? (top ++ names) = some node →
        Found tree target top job.settings.sourceExtension (target.joinAll names) front stem :=
  exists_found_of_names h.isName h.ne_nil h.extension

theorem IsSource.exists_found (h : IsSource job target top tree names) (hground : Ground target top tree) :
    ∃ front stem, names = front ++ [dotted stem job.settings.sourceExtension] ∧
      Found tree target top job.settings.sourceExtension (target.joinAll names) front stem := by
  obtain ⟨front, stem, hnames, -, hfound⟩ := h.watched.exists_found
  obtain ⟨content, hfile⟩ := h.file
  exact ⟨front, stem, hnames, hfound hground.sound hfile⟩

/-- The sources of a folder are the files with names of sources. -/
theorem Ground.exists_sources (h : Ground target top tree) (hout : job.toStdout = false) :
    ∃ sources, job.sources tree target = .ok sources ∧
      ∀ path, path ∈ sources ↔ ∃ names, IsSource job target top tree names ∧ target.joinAll names = path := by
  obtain ⟨sources, hsources, hperm⟩ := h.exists_perm_sources hout
  refine ⟨sources, hsources, fun path => ?_⟩
  rw [hperm.mem_iff, List.mem_filter, List.mem_map]
  constructor
  · rintro ⟨⟨names, hmem, rfl⟩, hextension⟩
    obtain ⟨hisName, -, content, hfile⟩ := h.sound.of_mem_namesUnder h.folder hmem
    have hne := h.ne_nil hfile
    refine ⟨names, ⟨⟨hisName, ?_, hextension⟩, content, hfile⟩, rfl⟩
    cases hrecursive : job.settings.recursive with
    | true => exact .inr ⟨rfl, hne⟩
    | false =>
      rw [hrecursive, if_neg Bool.false_ne_true] at hmem
      exact .inl (Nat.le_antisymm (FileTree.length_le_of_mem_namesUnder hmem) (List.length_pos_iff.2 hne))
  · rintro ⟨names, ⟨hwatched, content, hfile⟩, rfl⟩
    refine ⟨⟨names, h.sound.mem_namesUnder_of_file h.folder hfile ?_, rfl⟩, hwatched.extension⟩
    split
    · have hbound := FileTree.length_le_depthBound (FileTree.mem_nodes_of_node? (by simp [hwatched.ne_nil]) hfile)
      rw [List.length_append] at hbound
      omega
    · rename_i hrecursive
      exact (hwatched.depth.resolve_right fun hdeep => hrecursive hdeep.1).le

/-! ## Settled outputs -/

/-- Compiling a source leaves its output as it is. -/
def Settled (process : Step → String → Option String) (job : Job) (tree : FileTree) (path : Path) : Prop :=
  ∀ place node, job.effect? process tree path = some (place, node) → tree.node? place = some node

/-- A source has the same text in two trees in which it is the same. -/
theorem Watched.text?_eq (h : Watched job target names) (hbefore : Ground target top tree)
    (hafter : Ground target top now) (hnode : tree.node? (top ++ names) = some node)
    (hsame : now.node? (top ++ names) = some node) :
    job.text? process now (target.joinAll names) = job.text? process tree (target.joinAll names) := by
  obtain ⟨front, stem, hnames, -, hfound⟩ := h.exists_found
  have hold := hfound hbefore.sound hnode
  have hnew := hfound hafter.sound hsame
  have hresolve : (now.resolve .visit (target.joinAll names)).toOption =
      (tree.resolve .visit (target.joinAll names)).toOption := by
    rw [hold.path_eq, hnew.toOption_resolve_beside hafter hnew.isName_last,
      hold.toOption_resolve_beside hbefore hold.isName_last]
  simp only [Job.text?, FileTree.toOption_read, FileTree.toOption_readBytes, hresolve]
  cases hplace : (tree.resolve .visit (target.joinAll names)).toOption with
  | none => rfl
  | some place =>
    obtain ⟨rfl, -⟩ := hold.eq_of_toOption_resolve hbefore hplace
    rw [hnames, ← List.append_assoc] at hnode hsame
    simp only [Option.bind_some, hnode, hsame]

/-- What has a text is a file to those who look. -/
theorem Watched.isFile_of_text? (h : Watched job target names) (hground : Ground target top tree) {content : ByteArray}
    (hnode : tree.node? (top ++ names) = some (.file content)) {text : String}
    (htext : job.text? process tree (target.joinAll names) = some text) :
    tree.isFile (target.joinAll names) = true := by
  obtain ⟨front, stem, hnames, -, hfound⟩ := h.exists_found
  obtain ⟨place, hplace⟩ := Job.exists_place_of_text? htext
  obtain ⟨heq, -⟩ := (hfound hground.sound hnode).eq_of_toOption_resolve hground hplace
  rw [List.append_assoc, ← hnames] at heq
  rw [FileTree.isFile, FileTree.find_eq_ok hplace (by rw [heq, hnode])]

section Outputs

variable (hjob : job.Exchanges)

include hjob

/-- A source of two trees goes to the same place, if that is free in both. -/
theorem Watched.outputPlace?_eq (h : Watched job target names) (hbefore : Ground target top tree)
    (hafter : Ground target top now) {other : Node} (hnode : tree.node? (top ++ names) = some node)
    (hnew : now.node? (top ++ names) = some other) {place : Location}
    (hhits : job.Hits now (target.joinAll names) place) :
    job.outputPlace? tree (target.joinAll names) = some place := by
  obtain ⟨front, stem, -, -, hfound⟩ := h.exists_found
  have hthere := hfound hafter.sound hnew
  obtain ⟨hstem, -⟩ := hthere.eq_of_hits hjob hafter hhits
  rw [(hfound hbefore.sound hnode).outputPlace?_eq hjob hbefore hstem, ← hthere.outputPlace?_eq hjob hafter hstem,
    hhits.outputPlace]

/-- The folder of an output is that of its source. -/
theorem IsSource.above_output (h : IsSource job target top tree names) (hground : Ground target top tree)
    {place : Location} (hhits : job.Hits tree (target.joinAll names) place) :
    (∀ name ∈ place, IsName name) ∧ tree.node? place.dropLast = some .folder := by
  obtain ⟨front, stem, -, hfound⟩ := h.exists_found hground
  obtain ⟨content, hfile⟩ := h.file
  obtain ⟨-, rfl⟩ := hfound.eq_of_hits hjob hground hhits
  have htop : ∀ name ∈ top, IsName name := by
    intro name hname
    have hmem := FileTree.mem_nodes_of_node? (by simp [h.watched.ne_nil]) hfile
    exact hground.sound.isName _ hmem name (List.mem_append_left _ hname)
  rw [List.dropLast_concat]
  refine ⟨?_, hfound.folders front List.prefix_rfl⟩
  simp only [List.forall_mem_append, List.forall_mem_singleton]
  exact ⟨⟨htop, hfound.isName⟩, Path.isName_dotted hfound.isName_last hfound.stem_ne hjob.ne_empty hjob.slash⟩

/-- Sources with one output are one source. -/
theorem IsSource.eq_of_hits (h : IsSource job target top tree names) (hground : Ground target top tree)
    {others : List String} (hothers : IsSource job target top now others) (hafter : Ground target top now)
    {place : Location} (hhits : job.Hits tree (target.joinAll names) place)
    (hmeets : job.Hits now (target.joinAll others) place) : names = others := by
  obtain ⟨front, stem, hnames, hfound⟩ := h.exists_found hground
  obtain ⟨front', stem', hnames', hfound'⟩ := hothers.exists_found hafter
  obtain ⟨hfront, hstem⟩ := hfound.eq_of_hits_both hjob hground hfound' hafter hhits hmeets
  rw [hnames, hnames', hfront, hstem]

/-- No output is at the place of a source, whether or not the source is there. -/
theorem IsSource.ne_of_hits (h : IsSource job target top tree names) (hground : Ground target top tree)
    {place : Location} (hhits : job.Hits tree (target.joinAll names) place) {others : List String}
    (hothers : Watched job target others) : top ++ others ≠ place := by
  obtain ⟨front, stem, -, hfound⟩ := h.exists_found hground
  obtain ⟨front', stem', rfl, hdot, -⟩ := hothers.exists_found
  obtain ⟨-, rfl⟩ := hfound.eq_of_hits hjob hground hhits
  intro heq
  rw [← List.append_assoc] at heq
  exact hjob.dotted_ne hdot _ _ (List.singleton_inj.1 (List.append_inj' heq rfl).2).symm

/-- An edit elsewhere leaves an output settled. -/
theorem Settled.edited (h : Settled process job tree (target.joinAll names)) (hground : Ground target top tree)
    {spot : Location} (hedited : Edited tree spot now) (hsource : IsSource job target top now names)
    (hspot : top ++ names ≠ spot) (houtput : ∀ place, job.Hits now (target.joinAll names) place → place ≠ spot) :
    Settled process job now (target.joinAll names) := by
  intro place node heffect
  obtain ⟨content, hfile⟩ := hsource.file
  have hbefore := hedited.node?_eq hspot (by simp [hfile])
  have hhits := Job.hits_of_effect? heffect
  have hsame := hedited.node?_eq (houtput place hhits) hhits.node
  obtain ⟨text, htext, -, htaken⟩ := Job.effect?_eq_some.1 heffect
  rw [hfile] at hbefore
  rw [hsource.watched.text?_eq hground (hground.edited hedited) hbefore.symm hfile] at htext
  rw [hsame] at htaken ⊢
  exact h place node (Job.effect?_eq_some.2 ⟨text, htext, hsource.watched.outputPlace?_eq hjob hground
    (hground.edited hedited) hbefore.symm hfile hhits, htaken⟩)

end Outputs

/-! ## Compiling -/

/-- Sources were compiled: their outputs are settled and those that were settled still are, and nothing has changed if
all were. -/
structure Refreshed (process : Step → String → Option String) (job : Job) (target : Path) (top : Location)
    (tree : FileTree) (done : List Path) (now : FileTree) : Prop where
  ground : Ground target top now
  working : now.working = tree.working
  isSource : ∀ names, IsSource job target top now names ↔ IsSource job target top tree names
  settled : ∀ names, IsSource job target top tree names →
    target.joinAll names ∈ done ∨ Settled process job tree (target.joinAll names) →
      Settled process job now (target.joinAll names)
  same : (∀ names, IsSource job target top tree names → Settled process job tree (target.joinAll names)) →
    ∀ location, now.node? location = tree.node? location

theorem Refreshed.trans {last : FileTree} {done more : List Path} (h : Refreshed process job target top tree done now)
    (hmore : Refreshed process job target top now more last) :
    Refreshed process job target top tree (done ++ more) last := by
  refine ⟨hmore.ground, hmore.working.trans h.working, fun names => (hmore.isSource names).trans (h.isSource names),
    fun names hsource hsettled => ?_, fun hall location => ?_⟩
  · rw [List.mem_append, or_right_comm] at hsettled
    refine hmore.settled names ((h.isSource names).2 hsource) ?_
    exact hsettled.symm.imp_right (h.settled names hsource)
  · have hsettled : ∀ names, IsSource job target top now names → Settled process job now (target.joinAll names) := by
      intro names hsource
      have hbefore := (h.isSource names).1 hsource
      exact h.settled names hbefore (.inr (hall names hbefore))
    rw [hmore.same hsettled, h.same hall]

theorem Node.taking_self {content : ByteArray} {old : Option Node} (h : taking content old = some node) :
    taking content (some node) = some node := by
  unfold taking at h
  split at h
  · cases h
  · cases h
    rfl
  · rename_i hfull
    split at h
    · cases h
      exact if_pos ‹_›
    · cases h
  · cases h
    rfl

section Compile

variable (hfollows : job.pipeline.Follows tools process) (hout : job.toStdout = false) (hjob : job.Exchanges)

include hfollows hout hjob

/-- Compiling one source settles its output. -/
theorem IsSource.exists_compileFile (h : IsSource job target top tree names) (hground : Ground target top tree) :
    ∃ now, Refreshed process job target top tree [target.joinAll names] now ∧
      (job.compileFile tools tree (target.joinAll names) = .ok (now, "") ∨
        now = tree ∧ ∃ failure, job.compileFile tools tree (target.joinAll names) = .error failure ∧
          failure.isFatal = false) := by
  cases heffect : job.effect? process tree (target.joinAll names) with
  | none =>
    have hfailure := Job.exists_compileFile_error hfollows hout hjob.slash heffect
    refine ⟨tree, ⟨hground, rfl, fun _ => Iff.rfl, fun others _ hsettled => ?_, fun _ _ => rfl⟩, .inr ⟨rfl, hfailure⟩⟩
    refine hsettled.elim (fun hdone place node hnew => ?_) id
    rw [List.mem_singleton.1 hdone, heffect] at hnew
    cases hnew
  | some found =>
    obtain ⟨place, node⟩ := found
    have hhits := Job.hits_of_effect? heffect
    obtain ⟨now, output, text, hcompiled, hwrite, hresolve, hreplaces⟩ := Job.exists_write hfollows hout heffect
    obtain ⟨hplace, hparent⟩ := h.above_output hjob hground hhits
    have hedited : Edited tree place now :=
      FileTree.edited_write hground.sound hground.linkFree hresolve hwrite hplace hparent hhits.node
    have hafter := hground.edited hedited
    have hapart : ∀ others, Watched job target others → now.node? (top ++ others) = tree.node? (top ++ others) :=
      fun others hothers => by rw [hreplaces.node, if_neg (h.ne_of_hits hjob hground hhits hothers)]
    have hsources : ∀ others, IsSource job target top now others ↔ IsSource job target top tree others := by
      refine fun others => ⟨fun ⟨hwatched, hfile⟩ => ⟨hwatched, ?_⟩, fun ⟨hwatched, hfile⟩ => ⟨hwatched, ?_⟩⟩
      · rwa [← hapart others hwatched]
      · rwa [hapart others hwatched]
    refine ⟨now, ⟨hafter, hreplaces.working, hsources, fun others hsource hsettled => ?_, fun hall location => ?_⟩,
      .inl hcompiled⟩
    · have hsource' := (hsources others).2 hsource
      by_cases heq : others = names
      · -- The text and the place are as before, and what has taken the text takes it again.
        subst heq
        intro place' node' hagain
        obtain ⟨content, hfile⟩ := hsource.file
        have hfile' := (hapart others hsource.watched).trans hfile
        have hhits' := Job.hits_of_effect? hagain
        have hold := hsource.watched.outputPlace?_eq hjob hground hafter hfile hfile' hhits'
        obtain ⟨written, hwritten, -, htaken⟩ := Job.effect?_eq_some.1 heffect
        obtain ⟨again, hagain, -, htaken'⟩ := Job.effect?_eq_some.1 hagain
        rw [hsource.watched.text?_eq hground hafter hfile hfile', hwritten] at hagain
        rw [hhits.outputPlace] at hold
        cases hagain
        cases hold
        have hnode : now.node? place = some node := by rw [hreplaces.node, if_pos rfl]
        rw [hnode, Node.taking_self htaken] at htaken'
        rw [hnode, htaken']
      · have hpath : target.joinAll others ∉ [target.joinAll names] := by
          intro hmem
          have hsteps : ∀ {names}, Watched job target names → ∀ name ∈ names, Path.IsStep name :=
            fun hwatched name hname => (hwatched.isName name hname).toIsStep
          exact heq (Path.joinAll_injective target (hsteps hsource.watched) (hsteps h.watched)
            (List.mem_singleton.1 hmem))
        refine (hsettled.resolve_left hpath).edited hjob hground hedited hsource'
          (h.ne_of_hits hjob hground hhits hsource.watched) fun other hmeets hsame => heq ?_
        rw [hsame] at hmeets
        exact (h.eq_of_hits hjob hground hsource' hafter hhits hmeets).symm
    · rw [hreplaces.node]
      split
      · rename_i heq
        rw [heq, hall names h place node heffect]
      · rfl

/-- Compiling sources one after another settles their outputs. -/
theorem Ground.exists_files {paths : List Path} {build : Build} (hground : Ground target top build.tree)
    (hpaths : ∀ path ∈ paths, ∃ names, IsSource job target top build.tree names ∧ target.joinAll names = path) :
    ∃ after, paths.foldlM (Build.next tools job) build = .ok after ∧
      Refreshed process job target top build.tree paths after.tree := by
  induction paths generalizing build with
  | nil =>
    exact ⟨build, rfl, hground, rfl, fun _ => Iff.rfl, fun _ _ hsettled => hsettled.resolve_left nofun, fun _ _ => rfl⟩
  | cons path paths ih =>
    obtain ⟨⟨names, hsource, rfl⟩, hrest⟩ := List.forall_mem_cons.1 hpaths
    obtain ⟨now, hrefreshed, hcompiled⟩ :=
      hsource.exists_compileFile hfollows hout hjob hground
    obtain ⟨middle, hnext, rfl⟩ : ∃ middle, Build.next tools job build (target.joinAll names) = .ok middle ∧
        middle.tree = now := by
      rcases hcompiled with hok | ⟨rfl, failure, hfailure, hfatal⟩
      · rw [Build.next, hok]
        exact ⟨_, rfl, rfl⟩
      · rw [Build.next, hfailure]
        simp [hfatal]
    obtain ⟨after, hafter, hlast⟩ := ih hrefreshed.ground fun path hpath => by
      obtain ⟨others, hothers, heq⟩ := hrest path hpath
      exact ⟨others, (hrefreshed.isSource others).2 hothers, heq⟩
    refine ⟨after, ?_, hrefreshed.trans hlast⟩
    rw [List.foldlM_cons, hnext]
    exact hafter

/-- A build settles every output, and changes nothing if they are all settled. -/
theorem Ground.exists_run (hground : Ground target top tree) : ∃ build sources,
    Build.run tools job tree target = .ok build ∧ Refreshed process job target top tree sources build.tree ∧
      ∀ names, IsSource job target top tree names → target.joinAll names ∈ sources := by
  obtain ⟨sources, hsources, hmem⟩ := hground.exists_sources hout
  have hstart : Ground target top ({ tree } : Build).tree := hground
  obtain ⟨build, hbuild, hrefreshed⟩ := hstart.exists_files hfollows hout hjob
    fun path hpath => (hmem path).1 hpath
  refine ⟨build, sources, ?_, hrefreshed, fun names hnames => (hmem _).2 ⟨names, hnames, rfl⟩⟩
  rw [Build.run, hsources]
  exact hbuild

end Compile

/-! ## Changes -/

namespace Watch

variable {change : Change}

/-- The location that a change names. -/
def Change.location : Change → Location
  | .move location _ | .append location _ | .remove location => location

/-- A source that is watched is created, modified or removed.  It is a file, or there is nothing yet, and all that is
on the way to it are folders. -/
structure Change.OfSource (watch : Watch) (change : Change) : Prop where
  seen : ∃ path, watch.scope.sees? change.location = some path ∧
    path.hasExtension watch.job.settings.sourceExtension = true
  isName : ∀ name ∈ change.location, IsName name
  free : ∀ count < change.location.length, watch.tree.node? (change.location.take count) = none ∨
    watch.tree.node? (change.location.take count) = some .folder
  node : (∃ content, watch.tree.node? change.location = some (.file content)) ∨
    watch.tree.node? change.location = none ∧ change.kind ≠ .remove

/-- Without links what changes is what is named. -/
theorem Change.place_eq (hlinks : tree.LinkFree) (hnames : ∀ name ∈ change.location, IsName name) :
    change.place tree = change.location := by
  cases change with
  | move | remove => rfl
  | append location content =>
    simp only [place, Change.location] at hnames ⊢
    cases hplace : (tree.resolveSteps .visit FileTree.linkLimit [] location).toOption with
    | none => rfl
    | some place => exact (FileTree.walk_iff.1 hplace).eq_append hlinks hnames

/-- A change is an edit, after which there is a file, or nothing if it was a removal. -/
theorem Change.edited_apply (hsound : tree.Sound) (hlinks : tree.LinkFree)
    (hnames : ∀ name ∈ change.location, IsName name)
    (hfree : ∀ count < change.location.length, tree.node? (change.location.take count) = none ∨
      tree.node? (change.location.take count) = some .folder)
    (hnode : (∃ content, tree.node? change.location = some (.file content)) ∨
      tree.node? change.location = none ∧ change.kind ≠ .remove) :
    Edited tree change.location (change.apply tree change.location) ∧
      if change.kind.changes then
        ∃ content, (change.apply tree change.location).node? change.location = some (.file content)
      else (change.apply tree change.location).node? change.location = none := by
  have here : tree.node? change.location ≠ some .folder := by
    rcases hnode with ⟨content, hfile⟩ | ⟨hnone, -⟩
    · simp [hfile]
    · simp [hnone]
  have hplant : ∀ content, Edited tree change.location (tree.plant change.location (.file content)) ∧
      ∃ found, (tree.plant change.location (.file content)).node? change.location = some (.file found) := by
    intro content
    have hlink : ∀ target, Node.file content ≠ .link target := by simp
    obtain ⟨hedited, hfile⟩ := FileTree.edited_plant hsound hlinks hnames hfree here hlink
    exact ⟨hedited, content, hfile⟩
  have hroot : change.location ≠ [] := fun heq => here (by rw [heq]; rfl)
  cases change with
  | move location content => exact hplant content
  | append location content =>
    simp only [apply, Change.location] at hnode ⊢
    rcases hnode with ⟨old, hfile⟩ | ⟨hnone, -⟩
    · rw [hfile]
      refine ⟨FileTree.edited_put hsound hlinks hnames (hsound.node?_dropLast hfile) here (by simp), old ++ content, ?_⟩
      exact ((FileTree.replaces_put tree hroot _).node _).trans (if_pos rfl)
    · rw [hnone]
      exact hplant content
  | remove location =>
    refine ⟨FileTree.edited_erase hsound hlinks here, ?_⟩
    exact (FileTree.node?_erase hroot _).trans (if_pos rfl)

theorem dropRepeats_singleton (path : Path) : dropRepeats [path] = [path] := by
  rw [dropRepeats]

/-- One path is compiled again if its event is a change and it is a source. -/
theorem handle_singleton (tools : Tool.Box) (job : Job) (tree : FileTree) (kind : Kind) (path : Path) :
    (handle tools job tree ⟨kind, [path]⟩).1 =
      if kind.changes && (path.hasExtension job.settings.sourceExtension && tree.isFile path) then
        (recompile tools job tree path).1
      else tree := by
  unfold handle changedSources
  cases kind.changes with
  | false => rfl
  | true =>
    cases hfile : path.hasExtension job.settings.sourceExtension && tree.isFile path with
    | false => simp [hfile, dropRepeats]
    | true => simp [hfile, dropRepeats_singleton]

/-- A folder is watched, and all outputs are settled. -/
structure UpToDate (process : Step → String → Option String) (job : Job) (target : Path) (top : Location)
    (watch : Watch) : Prop where
  job_eq : watch.job = job
  scope_eq : watch.scope = .folder target top job.settings.recursive
  ground : Ground target top watch.tree
  settled : ∀ names, IsSource job target top watch.tree names →
    Settled process job watch.tree (target.joinAll names)

theorem exists_of_sees? {recursive : Bool} {location : Location} {path : Path}
    (h : (Scope.folder target top recursive).sees? location = some path) :
    ∃ names, location = top ++ names ∧ path = target.joinAll names ∧
      (names.length = 1 ∨ recursive = true ∧ names ≠ []) := by
  simp only [Scope.sees?, Option.ite_none_right_eq_some, Bool.and_eq_true, List.isPrefixOf_iff_prefix,
    Bool.or_eq_true, decide_eq_true_eq] at h
  obtain ⟨⟨⟨names, rfl⟩, hdepth⟩, hpath⟩ := h
  rw [List.drop_left] at hdepth hpath
  exact ⟨names, rfl, (Option.some.inj hpath).symm, hdepth⟩

/-- A watch goes on, one change of a source after another. -/
inductive Reaches (tools : Tool.Box) : Watch → Watch → Prop
  | done {watch : Watch} : Reaches tools watch watch
  | react {watch final : Watch} {change : Change} (hchange : change.OfSource watch)
      (hrest : Reaches tools (watch.react tools change).1 final) : Reaches tools watch final

section React

variable (hfollows : job.pipeline.Follows tools process) (hout : job.toStdout = false) (hjob : job.Exchanges)

include hfollows hout hjob

/-- A source that is there after an event is compiled, and its output is settled. -/
theorem settled_handle (hground : Ground target top tree) (hwatched : Watched job target names) {kind : Kind}
    (hnode : if kind.changes then ∃ content, tree.node? (top ++ names) = some (.file content)
      else tree.node? (top ++ names) = none)
    (hsettled : ∀ others, others ≠ names → IsSource job target top tree others →
      Settled process job tree (target.joinAll others)) :
    Ground target top (handle tools job tree ⟨kind, [target.joinAll names]⟩).1 ∧
      ∀ others, IsSource job target top (handle tools job tree ⟨kind, [target.joinAll names]⟩).1 others →
        Settled process job (handle tools job tree ⟨kind, [target.joinAll names]⟩).1 (target.joinAll others) := by
  rw [handle_singleton, hwatched.extension, Bool.true_and]
  cases hkind : kind.changes with
  | false =>
    rw [Bool.false_and, if_neg Bool.false_ne_true]
    refine ⟨hground, fun others hsource => hsettled others ?_ hsource⟩
    rintro rfl
    obtain ⟨content, hfile⟩ := hsource.file
    rw [if_neg (by simp [hkind]), hfile] at hnode
    cases hnode
  | true =>
    rw [hkind, if_pos rfl] at hnode
    obtain ⟨content, hfile⟩ := hnode
    have hsource : IsSource job target top tree names := ⟨hwatched, content, hfile⟩
    rw [Bool.true_and]
    split
    · obtain ⟨now, hrefreshed, hcompiled⟩ := hsource.exists_compileFile hfollows hout hjob hground
      have hnow : (recompile tools job tree (target.joinAll names)).1 = now := by
        rcases hcompiled with hok | ⟨rfl, failure, hfailure, -⟩
        · rw [recompile, hok]
        · rw [recompile, hfailure]
      rw [hnow]
      refine ⟨hrefreshed.ground, fun others hothers => ?_⟩
      have hbefore := (hrefreshed.isSource others).1 hothers
      refine hrefreshed.settled others hbefore ?_
      by_cases heq : others = names
      · exact .inl (by rw [heq]; exact List.mem_singleton.2 rfl)
      · exact .inr (hsettled others heq hbefore)
    · -- What cannot be followed to the file has no text either.
      rename_i hmissing
      refine ⟨hground, fun others hothers => ?_⟩
      by_cases heq : others = names
      · subst heq
        intro place node heffect
        obtain ⟨text, htext, -, -⟩ := Job.effect?_eq_some.1 heffect
        exact absurd (hwatched.isFile_of_text? hground hfile htext) hmissing
      · exact hsettled others heq hothers

/-- After a change of a source everything is up to date again. -/
theorem UpToDate.react {watch : Watch} (h : UpToDate process job target top watch)
    (hchange : change.OfSource watch) : UpToDate process job target top (watch.react tools change).1 := by
  obtain ⟨path, hsees, hextension⟩ := hchange.seen
  have hsees' := hsees
  rw [h.scope_eq] at hsees'
  obtain ⟨names, hlocation, rfl, hdepth⟩ := exists_of_sees? hsees'
  have hwatched : Watched job target names := by
    refine ⟨fun name hname => hchange.isName name ?_, hdepth, h.job_eq ▸ hextension⟩
    rw [hlocation]
    exact List.mem_append_right _ hname
  obtain ⟨hedited, hnode⟩ := Change.edited_apply h.ground.sound h.ground.linkFree hchange.isName hchange.free hchange.node
  have hafter := h.ground.edited hedited
  have hsettled : ∀ others, others ≠ names →
      IsSource job target top (change.apply watch.tree change.location) others →
      Settled process job (change.apply watch.tree change.location) (target.joinAll others) := by
    intro others hne hsource
    have hspot : top ++ others ≠ change.location := fun heq => hne (List.append_cancel_left (heq.trans hlocation))
    obtain ⟨content, hfile⟩ := hsource.file
    have hbefore := hedited.node?_eq hspot (by simp [hfile])
    refine (h.settled others ⟨hsource.watched, content, hbefore ▸ hfile⟩).edited hjob h.ground hedited hsource
      hspot fun place hhits heq => ?_
    exact hsource.ne_of_hits hjob hafter hhits hwatched (hlocation.symm.trans heq.symm)
  rw [hlocation] at hnode
  obtain ⟨hlast, hall⟩ := settled_handle hfollows hout hjob hafter hwatched
    (by rwa [hlocation]) hsettled
  have hscope : (if change.replaces then watch.scope.afterLoss change.location else watch.scope) =
      .folder target top job.settings.recursive := by
    rw [h.scope_eq]
    split <;> rfl
  simp only [Watch.react, Change.place_eq h.ground.linkFree hchange.isName, hsees, hscope, h.job_eq]
  exact ⟨rfl, rfl, hlast, hall⟩

theorem UpToDate.reaches {watch final : Watch} (h : UpToDate process job target top watch)
    (hreaches : Reaches tools watch final) : UpToDate process job target top final := by
  induction hreaches with
  | done => exact h
  | react hchange _ ih => exact ih (h.react hfollows hout hjob hchange)

end React

end Watch

end Offside
