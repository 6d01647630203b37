import HackStack.Proofs.Jobs

/-!
# The sources of a directory

A call on a directory compiles each of its sources to a file beside it, as if it were the only one
(`read_of_call`), with one exception. The source with the bare name `.vm` has no suffix that could
be replaced. It keeps its name in that of its output, and so the output is the same as that of
`.vm.vm` (`stem_eq_iff`), which comes later in the order of names (`mem_after_of_clash`) and is what
stays.
-/

namespace HackStack.Cli.Compiler

open Files (Path Tree Location IsName stem byteLength nameLimit pathLimit)
open Text.Utf8 (encode)
open Stack (compile)

/-! ### The names of outputs -/

theorem stem_append_sourceSuffix {t : Text} (h : t ≠ []) : stem (t ++ sourceSuffix) = t := by
  have hbefore : Text.beforeLast '.' (t ++ sourceSuffix) = t := by
    simp [Text.beforeLast, Text.after, sourceSuffix]
  have hafter : Text.afterLast '.' (t ++ sourceSuffix) = ['v', 'm'] := by
    simp [Text.afterLast, Text.before, sourceSuffix]
  have hsuffix : Files.suffix (t ++ sourceSuffix) ≠ [] := by
    simp [Files.suffix, hbefore, hafter, h]
  rw [stem, if_neg (by simpa using hsuffix), hbefore]

theorem stem_sourceSuffix : stem sourceSuffix = sourceSuffix := by decide

/-- **Two sources with one output** are `.vm` and `.vm.vm`. -/
theorem stem_eq_iff {t u : Text} :
    stem (t ++ sourceSuffix) = stem (u ++ sourceSuffix) ↔
      t = u ∨ t = [] ∧ u = sourceSuffix ∨ t = sourceSuffix ∧ u = [] := by
  by_cases ht : t = []
  · subst ht
    by_cases hu : u = []
    · simp [hu]
    · rw [List.nil_append, stem_sourceSuffix, stem_append_sourceSuffix hu]
      simp [Ne.symm hu, hu, eq_comm]
  · by_cases hu : u = []
    · subst hu
      rw [List.nil_append, stem_sourceSuffix, stem_append_sourceSuffix ht]
      simp [ht]
    · rw [stem_append_sourceSuffix ht, stem_append_sourceSuffix hu]
      simp [ht, hu]

section Directory

variable {tree : Tree} {p : Path}

theorem isDirectory_of_locate {l : Location} (hlocate : tree.locate p.render = .ok l)
    (hget : tree.get? l = some .directory) : isDirectory tree p = true := by
  simp only [isDirectory, Tree.stat, hlocate, hget]

theorem isName_target {name : Text} (h : IsName name) : IsName (stem name ++ targetSuffix) := by
  have hlength : 2 < (stem name ++ targetSuffix).length := by
    rw [List.length_append]
    exact Nat.lt_add_left _ (by decide)
  have hne {t : Text} (ht : t.length ≤ 2) : stem name ++ targetSuffix ≠ t := fun heq => by
    rw [heq] at hlength
    omega
  refine ⟨hne (Nat.zero_le 2), fun hmem => ?_, hne (by decide), hne (by decide)⟩
  rcases List.mem_append.mp hmem with hstem | hsuffix
  · exact h.slash_not_mem (Files.mem_of_mem_stem hstem)
  · exact absurd hsuffix (by decide)

/-- The output of a source goes to the directory of the source. -/
theorem writesTo_beside {name : Text} {content : Text.Utf8.Bytes} (hp : p.IsProper)
    (hname : IsName name) (hread : tree.read (p.child name).render = .ok content)
    (hdirectory : isDirectory tree ((p.child name).withSuffix targetSuffix) = false)
    (hshort : byteLength ((p.child name).withSuffix targetSuffix).name ≤ nameLimit)
    (hpath : byteLength ((p.child name).withSuffix targetSuffix).render ≤ pathLimit) :
    (Job.beside (p.child name)).WritesTo tree
      (tree.resolve p ++ [stem name ++ targetSuffix]) := by
  rw [Path.withSuffix_child] at hdirectory hpath hshort
  rw [Path.name_child] at hshort
  obtain ⟨l, hlocate, -⟩ := Tree.read_iff.mp hread
  have htarget := Files.locate_sibling hp hname (isName_target hname) hlocate hshort hpath
  have hlast : (p.child (stem name ++ targetSuffix)).render.getLast? ≠ some Files.slash := by
    obtain ⟨t, ht⟩ := Path.exists_render_eq_append p.root p.names (stem name ++ targetSuffix)
    rw [Path.child, ht, ← List.append_assoc, List.getLast?_append_of_ne_nil _ (by decide)]
    decide
  rw [Job.WritesTo, Job.beside, Path.withSuffix_child]
  refine Tree.writable_iff.mpr ⟨hlast, htarget, fun hget => ?_⟩
  rw [isDirectory_of_locate htarget hget] at hdirectory
  cases hdirectory

end Directory

/-- Of the jobs that write to a place there is a last one. -/
theorem exists_last_writesTo {tree : Tree} {js : List Job} {l : Location}
    (h : ∃ j ∈ js, j.WritesTo tree l) :
    ∃ before j after, js = before ++ j :: after ∧ j.WritesTo tree l ∧
      ∀ j' ∈ after, ¬ j'.WritesTo tree l := by
  induction js with
  | nil => obtain ⟨j, hj, -⟩ := h; cases hj
  | cons first more ih =>
    by_cases hmore : ∃ j ∈ more, j.WritesTo tree l
    · obtain ⟨before, j, after, rfl, hj, hafter⟩ := ih hmore
      exact ⟨first :: before, j, after, rfl, hj, hafter⟩
    · obtain ⟨j, hj, hwrites⟩ := h
      rcases List.mem_cons.mp hj with rfl | hj
      · exact ⟨[], j, more, rfl, hwrites, fun j' hj' h' => hmore ⟨j', hj', h'⟩⟩
      · exact absurd ⟨j, hj, hwrites⟩ hmore

/-! ### A directory that can be compiled -/

/-- A directory whose sources can all be compiled: each holds the bytes of a text without a fault,
and there is room for its output. -/
structure IsCompilable (tree : Tree) (p : Path) (text : Path → Text) : Prop where
  isProper : tree.IsProper
  read : ∀ f ∈ sources tree p, tree.read f.render = .ok (encode (text f))
  result : ∀ f ∈ sources tree p, ∃ n, (compile false (Text.unifyReturns (text f))).result = .ok n
  /-- No directory is where the output goes. -/
  free : ∀ f ∈ sources tree p, isDirectory tree (f.withSuffix targetSuffix) = false
  name_le : ∀ f ∈ sources tree p, byteLength (f.withSuffix targetSuffix).name ≤ nameLimit
  path_le : ∀ f ∈ sources tree p, byteLength (f.withSuffix targetSuffix).render ≤ pathLimit

/-- Two sources of a directory with one output. -/
def Clash (p f g : Path) : Prop :=
  f = p.child sourceSuffix ∧ g = p.child (sourceSuffix ++ sourceSuffix)

theorem withSuffix_eq_iff {p : Path} {t u : Text} :
    (p.child (t ++ sourceSuffix)).withSuffix targetSuffix =
        (p.child (u ++ sourceSuffix)).withSuffix targetSuffix ↔
      stem (t ++ sourceSuffix) = stem (u ++ sourceSuffix) := by
  rw [Path.withSuffix_child, Path.withSuffix_child, Path.child_inj, List.append_cancel_right_eq]

theorem clash_iff {p : Path} {t u : Text} :
    stem (t ++ sourceSuffix) = stem (u ++ sourceSuffix) ↔
      p.child (t ++ sourceSuffix) = p.child (u ++ sourceSuffix) ∨
        Clash p (p.child (t ++ sourceSuffix)) (p.child (u ++ sourceSuffix)) ∨
        Clash p (p.child (u ++ sourceSuffix)) (p.child (t ++ sourceSuffix)) := by
  simp only [stem_eq_iff, Clash, Path.child_inj, List.append_cancel_right_eq,
    List.append_left_eq_self, and_comm (a := t = sourceSuffix)]

theorem not_clash {p : Path} {name : Text} (h : name ≠ sourceSuffix) (g : Path) :
    ¬ Clash p (p.child name) g := fun hc => h (Path.child_inj.mp hc.1)

section IsCompilable

variable {tree : Tree} {p : Path} {text : Path → Text} (h : IsCompilable tree p text)

include h

theorem IsCompilable.exists_name {f : Path} (hf : f ∈ sources tree p) :
    ∃ t, f = p.child (t ++ sourceSuffix) ∧ IsName (t ++ sourceSuffix) := by
  obtain ⟨l, t, -, hentry, rfl⟩ := mem_sources_iff.mp hf
  exact ⟨t, rfl, h.isProper.isName hentry⟩

theorem IsCompilable.reads {f : Path} (hf : f ∈ sources tree p) :
    (Job.beside f).Reads tree (Text.unifyReturns (text f)) :=
  ⟨encode (text f), text f, h.read f hf, Text.Utf8.decodeBlocks_encode (text f), rfl⟩

theorem IsCompilable.writesTo (hp : p.IsProper) {t : Text}
    (hf : p.child (t ++ sourceSuffix) ∈ sources tree p) :
    (Job.beside (p.child (t ++ sourceSuffix))).WritesTo tree
      (tree.resolve p ++ [stem (t ++ sourceSuffix) ++ targetSuffix]) := by
  obtain ⟨u, hu, hname⟩ := h.exists_name hf
  obtain rfl := List.append_cancel_right (Path.child_inj.mp hu)
  exact writesTo_beside hp hname (h.read _ hf) (h.free _ hf) (h.name_le _ hf) (h.path_le _ hf)

theorem IsCompilable.compiles (hp : p.IsProper) {f : Path} (hf : f ∈ sources tree p) :
    (Job.beside f).Compiles tree := by
  obtain ⟨t, rfl, -⟩ := h.exists_name hf
  obtain ⟨n, hn⟩ := h.result _ hf
  exact ⟨_, _, n, h.reads hf, h.writesTo hp hf, hn⟩

end IsCompilable

/-! ### A call on a directory -/

section Call

variable {tree : Tree} {args : List Text} {r : Request}

theorem jobs_of_directory (hdirectory : isDirectory tree r.source = true) (hout : r.out = none)
    (hne : sources tree r.source ≠ []) :
    jobs tree r = .ok ((sources tree r.source).map Job.beside) := by
  rw [jobs, if_pos hdirectory, directoryJobs, hout]
  simp [hne]

/-- The source with the bare name is compiled before the other that has its output. -/
theorem mem_after_of_clash {f g : Path} {before after : List Job}
    (hjs : jobs tree r = .ok ((sources tree r.source).map Job.beside))
    (hclash : Clash r.source f g) (hg : g ∈ sources tree r.source)
    (hsplit : (sources tree r.source).map Job.beside = before ++ Job.beside f :: after) :
    Job.beside g ∈ after := by
  obtain ⟨rfl, rfl⟩ := hclash
  have hmem := List.mem_map_of_mem (f := Job.beside) hg
  have horder := pairwise_jobs hjs
  rw [hsplit] at hmem horder
  rcases List.mem_append.mp hmem with hbefore | hlater
  · have hname := (List.pairwise_append.mp horder).2.2 _ hbefore _ (List.mem_cons_self ..)
    rw [Job.beside, Job.beside, Path.name_child, Path.name_child] at hname
    exact absurd hname (by decide)
  · rcases List.mem_cons.mp hlater with heq | hafter
    · exact absurd (Path.child_inj.mp (Job.mk.inj heq).1) (by decide)
    · exact hafter

/-- The output of a source holds what was compiled from it, unless the source of the same output
comes after it. -/
theorem read_of_call (print : Printer) {text : Path → Text}
    (h : IsCompilable tree r.source text) (hr : request tree args = .ok r)
    (hjs : jobs tree r = .ok ((sources tree r.source).map Job.beside)) {f : Path}
    (hf : f ∈ sources tree r.source)
    (hclash : ∀ g ∈ sources tree r.source, ¬ Clash r.source f g) :
    (call print tree args).tree.read (f.withSuffix targetSuffix).render =
      .ok (encode (compile false (Text.unifyReturns (text f))).text) := by
  have hp := isProper_source hr
  have hcompiles : ∀ j ∈ (sources tree r.source).map Job.beside, j.Compiles tree := fun j hj => by
    obtain ⟨g, hg, rfl⟩ := List.mem_map.mp hj
    exact h.compiles hp hg
  obtain ⟨e', hrun, -, hholds, -⟩ := compileFiles_of_compiles r.test (e := ⟨tree, [], []⟩)
    (Kept.start tree _) (separate_jobs hp hjs) (fun _ hj => hj) hcompiles []
  have htree : (call print tree args).tree = e'.tree := by
    rw [tree_call_of_jobs hr hjs, ← List.append_nil ((sources tree r.source).map Job.beside), hrun]
    rfl
  obtain ⟨t, rfl, -⟩ := h.exists_name hf
  have hwrites := h.writesTo hp hf
  obtain ⟨before, j, after, hsplit, hj, hafter⟩ :=
    exists_last_writesTo ⟨_, List.mem_map_of_mem hf, hwrites⟩
  obtain ⟨g, hg, rfl⟩ := List.mem_map.mp (hsplit ▸ List.mem_append_right before
    (List.mem_cons_self ..) : j ∈ (sources tree r.source).map Job.beside)
  obtain ⟨u, rfl, -⟩ := h.exists_name hg
  -- the last job that writes there has a source of the same stem
  have hstem : stem (t ++ sourceSuffix) = stem (u ++ sourceSuffix) := by
    simpa using hj.unique (h.writesTo hp hg)
  rcases clash_iff.mp hstem with heq | hc | hc
  · rw [heq]
    refine (kept_call hr hjs).read_target hj ?_
    rw [htree]
    exact hholds before _ after _ _ hsplit (h.reads hg) hj hafter
  · exact absurd hc (hclash _ hg)
  · exact absurd hwrites (hafter _ (mem_after_of_clash hjs hc hf hsplit))

end Call

/-- **Each source of a directory is compiled as if it were alone**, with one exception. The sources
are the entries of the directory with the suffix of a source. If all of them can be compiled, the
call succeeds, and the output of each holds what is compiled from its text. Only the source that has
nothing but the suffix for a name shares its output with another, the one whose name is the suffix
twice, and then the output is that of the latter. -/
theorem call_directory_compiles_each (print : Printer) {tree : Tree} {args : List Text}
    {r : Request} {text : Path → Text} (hr : request tree args = .ok r)
    (hdirectory : isDirectory tree r.source = true) (hout : r.out = none)
    (h : IsCompilable tree r.source text) :
    (∀ f, f ∈ sources tree r.source ↔ ∃ l t, tree.locate r.source.render = .ok l ∧
      tree.get? (l ++ [t ++ sourceSuffix]) ≠ none ∧ f = r.source.child (t ++ sourceSuffix)) ∧
    (sources tree r.source ≠ [] → (call print tree args).exit = 0) ∧
    (∀ f ∈ sources tree r.source, (∀ g ∈ sources tree r.source, ¬ Clash r.source f g) →
      (call print tree args).tree.read (f.withSuffix targetSuffix).render =
        .ok (encode (compile false (Text.unifyReturns (text f))).text)) ∧
    ∀ f ∈ sources tree r.source, ∀ g ∈ sources tree r.source,
      f.withSuffix targetSuffix = g.withSuffix targetSuffix ↔
        f = g ∨ Clash r.source f g ∨ Clash r.source g f := by
  have hjs {f : Path} (hf : f ∈ sources tree r.source) :
      jobs tree r = .ok ((sources tree r.source).map Job.beside) :=
    jobs_of_directory hdirectory hout (List.ne_nil_of_mem hf)
  refine ⟨fun f => mem_sources_iff, fun hne => ?_, fun f hf hclash => ?_, fun f hf g hg => ?_⟩
  · refine (exit_call_iff hr (jobs_of_directory hdirectory hout hne)).mpr fun j hj => ?_
    obtain ⟨f, hf, rfl⟩ := List.mem_map.mp hj
    exact h.compiles (isProper_source hr) hf
  · exact read_of_call print h hr (hjs hf) hf hclash
  · obtain ⟨t, rfl, -⟩ := h.exists_name hf
    obtain ⟨u, rfl, -⟩ := h.exists_name hg
    exact withSuffix_eq_iff.trans clash_iff

/-! ### Dots -/

/-- The path of the directory below. -/
def dottedPath : Path := ⟨[], ["d".toList]⟩

/-- A directory with a source for a name with two dots, and two that share their output. -/
def dottedDirectory : Tree where
  entries :=
    [(["d".toList], .directory),
      (["d".toList, ".vm".toList], .file (encode "neg".toList)),
      (["d".toList, ".vm.vm".toList], .file (encode "not".toList)),
      (["d".toList, "x.y.vm".toList], .file (encode "eq\r\nlt".toList))]
  here := []

/-- The texts of these sources. -/
def dottedText (f : Path) : Text :=
  if f.name = ".vm".toList then "neg".toList
  else if f.name = ".vm.vm".toList then "not".toList
  else "eq\r\nlt".toList

theorem sources_dottedDirectory :
    sources dottedDirectory dottedPath =
      [".vm".toList, ".vm.vm".toList, "x.y.vm".toList].map dottedPath.child := by
  have hnames : dottedDirectory.names ["d".toList] =
      [".vm".toList, ".vm.vm".toList, "x.y.vm".toList] :=
    List.mergeSort_of_pairwise (by decide)
  rw [sources, show dottedDirectory.locate dottedPath.render = .ok ["d".toList] from rfl]
  simp only [hnames]
  rfl

theorem mem_sources_dottedDirectory {name : Text}
    (h : name ∈ [".vm".toList, ".vm.vm".toList, "x.y.vm".toList]) :
    dottedPath.child name ∈ sources dottedDirectory dottedPath :=
  sources_dottedDirectory ▸ List.mem_map_of_mem h

theorem isCompilable_dottedDirectory : IsCompilable dottedDirectory dottedPath dottedText := by
  have hall {P : Path → Prop} (hbare : P (dottedPath.child ".vm".toList))
      (htwice : P (dottedPath.child ".vm.vm".toList))
      (hother : P (dottedPath.child "x.y.vm".toList)) :
      ∀ f ∈ sources dottedDirectory dottedPath, P f := by
    rw [sources_dottedDirectory]
    exact List.forall_mem_cons.mpr ⟨hbare,
      List.forall_mem_cons.mpr ⟨htwice, List.forall_mem_singleton.mpr hother⟩⟩
  exact
    { isProper := by unfold Tree.IsProper; decide
      read := hall rfl rfl rfl
      result := hall ⟨_, rfl⟩ ⟨_, rfl⟩ ⟨_, rfl⟩
      free := hall rfl rfl rfl
      name_le := hall (by decide) (by decide) (by decide)
      path_le := hall (by decide) (by decide) (by decide) }

theorem call_dottedDirectory_compiles :
    request dottedDirectory ["d".toList] = .ok ⟨dottedPath, none, false, .warning⟩ ∧
      IsCompilable dottedDirectory dottedPath dottedText ∧
      (call (.onto false false) dottedDirectory ["d".toList]).exit = 0 ∧
      (call (.onto false false) dottedDirectory ["d".toList]).tree.read "d/.vm.asm".toList =
        .ok (encode (compile false "not".toList).text) ∧
      (call (.onto false false) dottedDirectory ["d".toList]).tree.read "d/x.y.asm".toList =
        .ok (encode (compile false "eq\nlt".toList).text) := by
  have hr : request dottedDirectory ["d".toList] = .ok ⟨dottedPath, none, false, .warning⟩ := rfl
  obtain ⟨-, hexit, hread, -⟩ :=
    call_directory_compiles_each (.onto false false) hr rfl rfl isCompilable_dottedDirectory
  have htwice := hread (dottedPath.child ".vm.vm".toList)
    (mem_sources_dottedDirectory (by decide)) fun g _ => not_clash (by decide) g
  have hother := hread (dottedPath.child "x.y.vm".toList)
    (mem_sources_dottedDirectory (by decide)) fun g _ => not_clash (by decide) g
  rw [show Path.render _ = "d/.vm.asm".toList from rfl,
    show Text.unifyReturns (dottedText _) = "not".toList from rfl] at htwice
  rw [show Path.render _ = "d/x.y.asm".toList from rfl,
    show Text.unifyReturns (dottedText _) = "eq\nlt".toList from rfl] at hother
  exact ⟨hr, isCompilable_dottedDirectory, hexit (by simp [sources_dottedDirectory]), htwice,
    hother⟩

/-- The output of the source with the bare name is not what is compiled from it. -/
theorem call_dottedDirectory_overwrites :
    (call (.onto false false) dottedDirectory ["d".toList]).tree.read
        ((dottedPath.child ".vm".toList).withSuffix targetSuffix).render ≠
      .ok (encode (compile false "neg".toList).text) := by
  have hr : request dottedDirectory ["d".toList] = .ok ⟨dottedPath, none, false, .warning⟩ := rfl
  have hjs : jobs dottedDirectory ⟨dottedPath, none, false, .warning⟩ =
      .ok ((sources dottedDirectory dottedPath).map Job.beside) :=
    jobs_of_directory rfl rfl (by simp [sources_dottedDirectory])
  have hread := read_of_call (.onto false false) isCompilable_dottedDirectory hr hjs
    (f := dottedPath.child ".vm.vm".toList) (mem_sources_dottedDirectory (by decide))
    fun g _ => not_clash (by decide) g
  have hsame : (dottedPath.child ".vm".toList).withSuffix targetSuffix =
      (dottedPath.child ".vm.vm".toList).withSuffix targetSuffix := rfl
  rw [hsame, hread]
  intro heq
  have htext := Text.Utf8.encode_inj (Except.ok.inj heq)
  exact absurd htext (by decide)

end HackStack.Cli.Compiler
