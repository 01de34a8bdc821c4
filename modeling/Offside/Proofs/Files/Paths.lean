import Mathlib.Data.List.TakeWhile
import Offside.FileTree.Access

/-!
# Names at the end of a path

A path that is joined with a name takes the steps of the path and then the name.  The name is the last one of the new
path, and its extension can be exchanged: the stem stays, behind the same folder.
-/

namespace Offside

namespace Path

variable {path : Path} {other extension stem : String}

/-- What a path can take a step by: a text that is not empty and without slashes. -/
structure IsStep (name : String) : Prop where
  ne_empty : name ≠ ""
  slash_not_mem : '/' ∉ name.toList

/-- What can stand in a folder: a step that is none of the dots that lead elsewhere. -/
structure IsName (name : String) : Prop extends IsStep name where
  ne_here : name ≠ "."
  ne_parent : name ≠ ".."

instance : DecidablePred IsName := fun name =>
  decidable_of_iff ((name ≠ "" ∧ '/' ∉ name.toList) ∧ name ≠ "." ∧ name ≠ "..")
    ⟨fun h => ⟨⟨h.1.1, h.1.2⟩, h.2.1, h.2.2⟩, fun h => ⟨⟨h.ne_empty, h.slash_not_mem⟩, h.ne_here, h.ne_parent⟩⟩

theorem ext_toList {other : Path} (h : path.text.toList = other.text.toList) : path = other := by
  cases path
  cases other
  simpa [String.toList_inj] using h

/-- A text can be cut at the last of its marks. -/
theorem exists_eq_append_cons {mark : Char} {text : List Char} (h : mark ∈ text) :
    ∃ front back, text = front ++ mark :: back ∧ mark ∉ back := by
  obtain ⟨back, front, hsplit, hback⟩ := List.eq_append_cons_of_mem (List.mem_reverse.2 h)
  refine ⟨front.reverse, back.reverse, ?_, by rwa [List.mem_reverse]⟩
  rw [← List.reverse_reverse text, hsplit]
  simp

theorem forall_reverse_ne {mark : Char} {text : List Char} (h : mark ∉ text) :
    ∀ c ∈ text.reverse, decide (c ≠ mark) = true := by
  intro c hc
  simp only [decide_eq_true_eq]
  exact fun heq => h (heq ▸ List.mem_reverse.1 hc)

/-! ## Segments -/

theorem segments_ne_nil (text : List Char) : segments text ≠ [] := by
  fun_cases segments text <;> simp

theorem segments_of_not_mem {text : List Char} (h : '/' ∉ text) : segments text = [text] := by
  induction text with
  | nil => rfl
  | cons c text ih =>
    simp only [List.mem_cons, not_or] at h
    rw [segments, if_neg (Ne.symm h.1), ih h.2]

theorem segments_append_slash (front : List Char) {name : List Char} (h : '/' ∉ name) :
    segments (front ++ '/' :: name) = segments front ++ [name] := by
  induction front with
  | nil => simp [segments, segments_of_not_mem h]
  | cons c front ih =>
    rw [List.cons_append, segments, segments]
    split
    · rw [ih, List.cons_append]
    · rw [ih]
      cases hfront : segments front with
      | nil => exact absurd hfront (segments_ne_nil front)
      | cons first others => rfl

/-! ## Joined paths -/

/-- What stands in front of a name that is joined to a path. -/
def lead (path : Path) : List Char :=
  if path.text.toList.getLast?.all (· = '/') then path.text.toList else path.text.toList ++ ['/']

theorem toList_join (path : Path) (name : String) : (path.join name).text.toList = path.lead ++ name.toList := by
  unfold join lead
  split <;> simp_all

/-- The steps that a path takes, without those that are empty. -/
def strides (path : Path) : List String := ((segments path.text.toList).map String.ofList).filter (· ≠ "")

theorem empty_not_mem_strides (path : Path) : "" ∉ path.strides := by
  simp [strides]

/-- A slash at the end of a path is the only empty step. -/
theorem exists_steps_eq (path : Path) :
    ∃ tail, (tail = [] ∨ tail = [""]) ∧ FileTree.steps path.text = path.strides ++ tail := by
  obtain ⟨front, last, hsegments⟩ : ∃ front last, segments path.text.toList = front ++ [last] :=
    ⟨_, _, (List.dropLast_concat_getLast (segments_ne_nil _)).symm⟩
  by_cases hlast : last = []
  · exact ⟨[""], Or.inr rfl, by simp [FileTree.steps, strides, hsegments, hlast]⟩
  · exact ⟨[], Or.inl rfl, by simp [FileTree.steps, strides, hsegments, hlast]⟩

/-- Names are put behind a slash, and in front of it stand the segments of the path, except perhaps an empty one. -/
theorem lead_eq (h : path.text ≠ "") : ∃ front, path.lead = front ++ ['/'] ∧
    path.strides = ((segments front).map String.ofList).filter (· ≠ "") := by
  have hne : path.text.toList ≠ [] := by simpa using h
  obtain ⟨front, hfront⟩ := List.getLast?_eq_some_iff.1 (List.getLast?_eq_some_getLast hne)
  by_cases hslash : path.text.toList.getLast hne = '/'
  · rw [hslash] at hfront
    refine ⟨front, by simp [lead, hfront], ?_⟩
    rw [strides, hfront, segments_append_slash front (List.not_mem_nil)]
    simp
  · refine ⟨path.text.toList, ?_, rfl⟩
    simp [lead, List.getLast?_eq_some_getLast hne, hslash]

section Join

variable (path : Path)

theorem join_text_ne_empty {name : String} (hname : IsStep name) : (path.join name).text ≠ "" := by
  intro h
  have htext := toList_join path name
  rw [h] at htext
  have hempty := hname.ne_empty
  simp_all

theorem segments_join {name : String} (hname : IsStep name) : ∃ front,
    segments (path.join name).text.toList = front ++ [name.toList] ∧
      path.strides = (front.map String.ofList).filter (· ≠ "") := by
  by_cases hpath : path.text = ""
  · exact ⟨[], by simp [toList_join, lead, hpath, segments_of_not_mem hname.slash_not_mem],
      by simp [strides, hpath, segments]⟩
  · obtain ⟨front, hlead, hstrides⟩ := lead_eq hpath
    refine ⟨segments front, ?_, hstrides⟩
    rw [toList_join, hlead, List.append_assoc]
    exact segments_append_slash front hname.slash_not_mem

theorem strides_join {name : String} (hname : IsStep name) : (path.join name).strides = path.strides ++ [name] := by
  obtain ⟨front, hsegments, hstrides⟩ := path.segments_join hname
  rw [strides, hsegments, List.map_append, List.filter_append, ← hstrides]
  simp [hname.ne_empty]

theorem steps_join {name : String} (hname : IsStep name) :
    FileTree.steps (path.join name).text = path.strides ++ [name] := by
  obtain ⟨front, hsegments, hstrides⟩ := path.segments_join hname
  simp [FileTree.steps, hsegments, hstrides]

theorem startsAtRoot_join {path : Path} (hpath : path.text ≠ "") (name : String) :
    FileTree.startsAtRoot (path.join name).text = FileTree.startsAtRoot path.text := by
  have hne : path.text.toList ≠ [] := by simpa using hpath
  obtain ⟨c, rest, htext⟩ := List.exists_cons_of_ne_nil hne
  rw [FileTree.startsAtRoot, FileTree.startsAtRoot, toList_join, lead]
  split <;> simp [htext]

/-- A path that ends in no slash is a name behind a path. -/
theorem exists_eq_join {path : Path} (h : (FileTree.steps path.text).getLast? ≠ some "") :
    ∃ front name, IsStep name ∧ path = join front name := by
  by_cases hslash : '/' ∈ path.text.toList
  · obtain ⟨front, back, htext, hname⟩ := exists_eq_append_cons hslash
    refine ⟨⟨String.ofList (front ++ ['/'])⟩, String.ofList back, ⟨fun hempty => h ?_, ?_⟩, ?_⟩
    · have hnil : back = [] := by simpa using hempty
      rw [FileTree.steps, htext, segments_append_slash _ hname, hnil]
      simp
    · simpa using hname
    · apply ext_toList
      simp [toList_join, lead, htext]
  · refine ⟨⟨""⟩, path.text, ⟨fun hempty => h ?_, hslash⟩, ?_⟩
    · rw [hempty]
      rfl
    · apply ext_toList
      simp [toList_join, lead]

end Join

/-- The path of something further down, by the names that lead there from a folder. -/
def joinAll (path : Path) (names : List String) : Path := names.foldl join path

theorem joinAll_cons (path : Path) (name : String) (names : List String) :
    path.joinAll (name :: names) = (path.join name).joinAll names := rfl

theorem joinAll_append (path : Path) (front : List String) (name : String) :
    path.joinAll (front ++ [name]) = (path.joinAll front).join name := by
  simp [joinAll]

section JoinAll

variable (path : Path) {names : List String} (hnames : ∀ name ∈ names, IsStep name)

include hnames

theorem strides_joinAll : (path.joinAll names).strides = path.strides ++ names := by
  induction names generalizing path with
  | nil => simp [joinAll]
  | cons name names ih =>
    obtain ⟨hname, hrest⟩ := List.forall_mem_cons.1 hnames
    rw [joinAll_cons, ih _ hrest, path.strides_join hname, List.append_assoc, List.singleton_append]

theorem joinAll_injective {others : List String} (hothers : ∀ name ∈ others, IsStep name)
    (h : path.joinAll names = path.joinAll others) : names = others := by
  have hstrides := path.strides_joinAll hnames
  rw [h, path.strides_joinAll hothers] at hstrides
  exact (List.append_cancel_left hstrides).symm

variable {path} (hpath : path.text ≠ "")

include hpath

theorem joinAll_text_ne_empty : (path.joinAll names).text ≠ "" := by
  induction names generalizing path with
  | nil => exact hpath
  | cons name names ih =>
    obtain ⟨hname, hrest⟩ := List.forall_mem_cons.1 hnames
    exact ih hrest (path.join_text_ne_empty hname)

theorem startsAtRoot_joinAll : FileTree.startsAtRoot (path.joinAll names).text = FileTree.startsAtRoot path.text := by
  induction names generalizing path with
  | nil => rfl
  | cons name names ih =>
    obtain ⟨hname, hrest⟩ := List.forall_mem_cons.1 hnames
    rw [joinAll_cons, ih hrest (path.join_text_ne_empty hname), startsAtRoot_join hpath]

end JoinAll

/-! ## Extensions -/

/-- Nothing of a name is dropped from the end of a path. -/
theorem dropMarks_name {name : List Char} (hslash : '/' ∉ name) (hempty : name ≠ []) (hhere : name ≠ ['.'])
    (rest : List Char) : dropMarks (name.reverse ++ rest) = name.reverse ++ rest := by
  rw [← List.mem_reverse] at hslash
  have hempty : name.reverse ≠ [] := fun h => hempty (List.reverse_eq_nil_iff.1 h)
  have hdot : name.reverse ≠ ['.'] := fun h => hhere (by simpa using congrArg List.reverse h)
  generalize name.reverse = reversed at hslash hempty hdot
  cases reversed with
  | nil => exact absurd rfl hempty
  | cons c others =>
    simp only [List.mem_cons, not_or] at hslash
    rw [List.cons_append]
    unfold dropMarks
    split
    · simp_all
    · cases others <;> simp_all
    · rfl

theorem body_join (path : Path) {name : String} (hslash : '/' ∉ name.toList) (hempty : name ≠ "") (hhere : name ≠ ".") :
    (path.join name).body = path.lead ++ name.toList := by
  have hempty' : name.toList ≠ [] := by simpa using hempty
  have hhere' : name.toList ≠ ['.'] := fun h => hhere (String.toList_inj.1 h)
  rw [body, toList_join, List.reverse_append, dropMarks_name hslash hempty' hhere']
  simp

theorem takeWhile_join (path : Path) {name : List Char} (hslash : '/' ∉ name) :
    (((path.lead ++ name).reverse).takeWhile (· ≠ '/')).reverse = name := by
  have hlead : path.lead.reverse.takeWhile (· ≠ '/') = [] := by
    by_cases htext : path.text = ""
    · simp [lead, htext]
    · obtain ⟨front, hfront, -⟩ := lead_eq htext
      simp [hfront]
  rw [List.reverse_append, List.takeWhile_append_of_pos (forall_reverse_ne hslash), hlead, List.append_nil, List.reverse_reverse]

theorem fileName?_join (path : Path) {name : String} (hname : IsName name) :
    (path.join name).fileName? = some name.toList := by
  have hempty : name.toList ≠ [] := by simpa using hname.ne_empty
  have hhere : name.toList ≠ ['.'] := fun h => hname.ne_here (String.toList_inj.1 h)
  have hparent : name.toList ≠ ['.', '.'] := fun h => hname.ne_parent (String.toList_inj.1 h)
  rw [fileName?, body_join path hname.slash_not_mem hname.ne_empty hname.ne_here,
    takeWhile_join path hname.slash_not_mem]
  simp [hempty, hhere, hparent]

/-- A path to the folder above has no last name. -/
theorem fileName?_join_parent (path : Path) : (path.join "..").fileName? = none := by
  rw [fileName?, body_join path (by decide) (by decide) (by decide), takeWhile_join path (by decide)]
  rfl

/-- What stands behind the last dot of a text, which is all of it if it has no dot. -/
def lastPart (text : List Char) : List Char := (text.reverse.takeWhile (· ≠ '.')).reverse

theorem lastPart_of_not_mem {text : List Char} (h : '.' ∉ text) : lastPart text = text := by
  rw [lastPart, List.takeWhile_eq_self_iff.2 (forall_reverse_ne h), List.reverse_reverse]

theorem lastPart_append (front back : List Char) : lastPart (front ++ '.' :: back) = lastPart back := by
  unfold lastPart
  rw [List.reverse_append, List.reverse_cons, List.append_assoc]
  congr 1
  rw [List.takeWhile_append]
  split
  · rename_i hall
    simpa using ((List.takeWhile_prefix _).eq_of_length hall).symm
  · rfl

theorem splitName_append (stem : List Char) {ending : List Char} (hending : '.' ∉ ending) :
    splitName (stem ++ '.' :: ending) = if stem = [] then ('.' :: ending, none) else (stem, some ending) := by
  have htake : lastPart (stem ++ '.' :: ending) = ending := by
    rw [lastPart_append, lastPart_of_not_mem hending]
  rw [lastPart] at htake
  have hfront : (stem ++ '.' :: ending).take ((stem ++ '.' :: ending).length - ending.length - 1) = stem := by
    have hlength : (stem ++ '.' :: ending).length - ending.length - 1 = stem.length := by simp; omega
    rw [hlength, List.take_left]
  simp only [splitName, htake, hfront]
  by_cases hstem : stem = [] <;> simp [hstem]

/-- An extension is what stands behind the last dot of a name, unless the name starts with that dot. -/
theorem eq_append_of_splitName {name ending : List Char} (h : (splitName name).2 = some ending) :
    ∃ stem, stem ≠ [] ∧ '.' ∉ ending ∧ name = stem ++ '.' :: ending := by
  have hdot : '.' ∈ name := by
    by_contra hnot
    simp [splitName, hnot] at h
  obtain ⟨front, back, heq, hbehind⟩ := exists_eq_append_cons hdot
  rw [heq, splitName_append _ hbehind] at h
  split at h
  · cases h
  · rename_i hstem
    cases h
    exact ⟨front, hstem, hbehind, heq⟩

/-- A name put together from a stem and an extension. -/
def dotted (stem extension : String) : String := stem ++ "." ++ extension

theorem toList_dotted (stem extension : String) :
    (dotted stem extension).toList = stem.toList ++ '.' :: extension.toList := by
  simp [dotted]

/-- The last name of a path with an extension is the extension behind a stem and a dot. -/
theorem exists_stem_of_hasExtension {name : String} (hname : IsName name)
    (h : (path.join name).hasExtension extension = true) :
    ∃ stem, stem ≠ "" ∧ '.' ∉ extension.toList ∧ name = dotted stem extension := by
  rw [hasExtension, extension?, fileName?_join path hname, Option.bind_some, decide_eq_true_eq,
    Option.map_eq_some_iff] at h
  obtain ⟨ending, hending, rfl⟩ := h
  obtain ⟨stem, hstem, hdot, heq⟩ := eq_append_of_splitName hending
  refine ⟨String.ofList stem, by simpa using hstem, by simpa using hdot, ?_⟩
  rw [← String.toList_inj, toList_dotted]
  simpa using heq

theorem isName_dotted (hname : IsName (dotted stem extension)) (hstem : stem ≠ "")
    (hother : other ≠ "") (hslash : '/' ∉ other.toList) : IsName (dotted stem other) := by
  have hstem' : stem.toList ≠ [] := by simpa using hstem
  have hother' : other.toList ≠ [] := by simpa using hother
  have hparts := hname.slash_not_mem
  rw [toList_dotted, List.mem_append, not_or] at hparts
  have hlong : 3 ≤ (dotted stem other).toList.length := by
    have hfront := List.length_pos_iff.2 hstem'
    have hback := List.length_pos_iff.2 hother'
    rw [toList_dotted, List.length_append, List.length_cons]
    omega
  refine ⟨⟨?_, by simp [toList_dotted, hparts.1, hslash]⟩, ?_, ?_⟩
  · intro h
    simp [h] at hlong
  · intro h
    simp [h] at hlong
  · intro h
    simp [h] at hlong

theorem splitName_fst {name : List Char} (h : name ≠ []) : (splitName name).1 ≠ [] ∧ (splitName name).1 ⊆ name := by
  unfold splitName
  dsimp only
  split
  · rename_i hstem
    exact ⟨by simpa using (Bool.and_eq_true_iff.1 hstem).2, List.take_subset _ _⟩
  · exact ⟨h, List.Subset.refl name⟩

/-- The stem of a name with another extension behind it. -/
def restemmed (name extension : String) : String :=
  String.ofList ((splitName name.toList).1 ++ if extension = "" then [] else '.' :: extension.toList)

theorem isStep_restemmed {name : String} (hname : IsStep name) (hslash : '/' ∉ extension.toList) :
    IsStep (restemmed name extension) := by
  obtain ⟨hstem, hsubset⟩ := splitName_fst (by simpa using hname.ne_empty : name.toList ≠ [])
  refine ⟨by simp [restemmed, hstem], ?_⟩
  simp only [restemmed, String.toList_ofList, List.mem_append, not_or]
  refine ⟨fun h => hname.slash_not_mem (hsubset h), ?_⟩
  split <;> simp [hslash]

theorem putExtension_join (path : Path) {name : String} (hname : IsName name) (extension : String) :
    (path.join name).putExtension extension = path.join (restemmed name extension) := by
  apply ext_toList
  rw [putExtension, fileName?_join path hname, toList_join]
  simp [body_join path hname.slash_not_mem hname.ne_empty hname.ne_here, restemmed]

/-- Nothing is put behind a path to the folder above. -/
theorem putExtension_join_parent (path : Path) (extension : String) :
    (path.join "..").putExtension extension = path.join ".." := by
  rw [putExtension, fileName?_join_parent]

/-- Where the last name of a path goes when it gets another extension. -/
def exchanged (stem extension : String) : String := if stem = "." then ".." else dotted stem extension

theorem isName_stem (hname : IsName (dotted stem extension)) (hstem : stem ≠ "")
    (hhere : stem ≠ ".") : IsName (stem ++ ".") := by
  have hparts := hname.slash_not_mem
  rw [toList_dotted, List.mem_append, not_or] at hparts
  refine ⟨⟨by simp, by simp [hparts.1]⟩, fun h => hstem ?_, fun h => hhere ?_⟩
  · exact (String.append_left_inj ".").1 h
  · exact (String.append_left_inj ".").1 h

section Exchange

variable (path : Path) {stem extension : String} (hstem : stem ≠ "") (hdot : '.' ∉ extension.toList)
  (hname : IsName (dotted stem extension))

include hstem hdot hname

theorem extension?_join : (path.join (dotted stem extension)).extension? = some extension := by
  have hstem' : stem.toList ≠ [] := by simpa using hstem
  rw [extension?, fileName?_join path hname, Option.bind_some, toList_dotted, splitName_append _ hdot, if_neg hstem']
  simp

theorem withoutExtension_join : (path.join (dotted stem extension)).withoutExtension = path.join (stem ++ ".") := by
  apply ext_toList
  rw [withoutExtension, extension?_join path hstem hdot hname]
  simp only [String.toList_ofList, toList_join, toList_dotted]
  have hlength : (path.join (dotted stem extension)).text.length - extension.length =
      (path.lead ++ (stem.toList ++ ['.'])).length := by
    rw [← String.length_toList, ← String.length_toList, toList_join, toList_dotted]
    simp
    omega
  have hsplit : path.lead ++ (stem.toList ++ '.' :: extension.toList) =
      path.lead ++ (stem.toList ++ ['.']) ++ extension.toList := by simp
  rw [hlength, hsplit, List.take_left]
  simp

/-- Another extension is put behind the stem of the last name.  Where the stem is a dot the path leads to the folder
above instead. -/
theorem withExtension?_join (hother : other ≠ "") (hslash : '/' ∉ other.toList) :
    (path.join (dotted stem extension)).withExtension? other =
      some (path.join (exchanged stem other)) := by
  have hplain : other.toList.contains '/' = false := by simpa using hslash
  rw [withExtension?, hplain, if_neg Bool.false_ne_true, withoutExtension_join path hstem hdot hname]
  apply congrArg some
  unfold exchanged
  split
  · rename_i hhere
    have hjoined : path.join (stem ++ ".") = path.join ".." := by rw [hhere]; rfl
    rw [hjoined, putExtension_join_parent]
  · rename_i hhere
    have hstem' : stem.toList ≠ [] := by simpa using hstem
    have hsplit : splitName (stem ++ ".").toList = (stem.toList, some []) := by
      have happend := splitName_append stem.toList (List.not_mem_nil (a := '.'))
      rw [if_neg hstem'] at happend
      simpa using happend
    have hrestemmed : restemmed (stem ++ ".") other = dotted stem other := by
      rw [← String.toList_inj, toList_dotted]
      simp only [restemmed, hsplit, if_neg hother, String.toList_ofList]
    rw [putExtension_join path (isName_stem hname hstem hhere), hrestemmed]

end Exchange

/-- Another extension changes no more than the last step of a path. -/
theorem exists_withExtension?_join (path : Path) {name : String} (hname : IsName name)
    (hslash : '/' ∉ extension.toList) :
    ∃ other, IsStep other ∧ (path.join name).withExtension? extension = some (path.join other) := by
  have hplain : extension.toList.contains '/' = false := by simpa using hslash
  rw [withExtension?, hplain, if_neg Bool.false_ne_true]
  cases hold : (path.join name).extension? with
  | none =>
    refine ⟨restemmed name extension, isStep_restemmed hname.toIsStep hslash, ?_⟩
    rw [withoutExtension, hold, putExtension_join path hname]
  | some old =>
    have hhas : (path.join name).hasExtension old = true := by rw [hasExtension, hold, decide_eq_true rfl]
    obtain ⟨stem, hstem, hdot, rfl⟩ := exists_stem_of_hasExtension hname hhas
    rw [withoutExtension_join path hstem hdot hname]
    by_cases hhere : stem = "."
    · have hjoined : path.join (stem ++ ".") = path.join ".." := by rw [hhere]; rfl
      exact ⟨"..", ⟨by decide, by decide⟩, by rw [hjoined, putExtension_join_parent]⟩
    · have hshort := isName_stem hname hstem hhere
      exact ⟨_, isStep_restemmed hshort.toIsStep hslash, by rw [putExtension_join path hshort]⟩

theorem isStep_exchanged (hname : IsName (dotted stem extension)) (hstem : stem ≠ "")
    (hother : other ≠ "") (hslash : '/' ∉ other.toList) : IsStep (exchanged stem other) := by
  unfold exchanged
  split
  · exact ⟨by decide, by decide⟩
  · exact (isName_dotted hname hstem hother hslash).toIsStep

theorem dotted_injective {stem' : String} (h : dotted stem extension = dotted stem' extension) : stem = stem' := by
  rw [← String.toList_inj, toList_dotted, toList_dotted] at h
  exact String.toList_inj.1 (List.append_cancel_right h)

theorem exchanged_injective {stem' : String} (hname : IsName (dotted stem extension))
    (hname' : IsName (dotted stem' extension)) (hstem : stem ≠ "") (hstem' : stem' ≠ "") (hother : other ≠ "")
    (hslash : '/' ∉ other.toList) (h : exchanged stem other = exchanged stem' other) : stem = stem' := by
  unfold exchanged at h
  split at h
  · split at h
    · simp_all
    · exact absurd h.symm (isName_dotted hname' hstem' hother hslash).ne_parent
  · split at h
    · exact absurd h (isName_dotted hname hstem hother hslash).ne_parent
    · exact dotted_injective h

end Path

end Offside
