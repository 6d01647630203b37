import HackStack.Proofs.Decoding
import HackStack.Proofs.Echo
import HackStack.Proofs.FileTree
import HackStack.Proofs.Messages

/-!
# What a call of the compiler changes

A call does jobs one after the other, each on the tree that the jobs before have left. Still, what a
job reads and where it writes is settled by the tree at the start (`Job.Reads`, `Job.WritesTo`): the
outputs are put where no directory is, so that all paths lead where they led (`Kept`), and no output
is put where a source is (`separate_jobs`).

So the outcome of each job can be said of the tree at the start (`Job.Compiles`). A run does the
jobs up to the first that does not compile (`compileFiles_of_compiles`), and it changes nothing but
the places of their outputs (`Kept.compileFiles`).
-/

namespace HackStack.Cli.Compiler

open Files (Path Tree Location)
open Text.Utf8 (Bytes encode decodeBlocks)
open Stack (compile)

/-! ### Jobs on the tree at the start -/

/-- The text that a job compiles: the source can be read and decoded, and its lines end in line
feeds. -/
def Job.Reads (tree : Tree) (job : Job) (source : Text) : Prop :=
  ∃ content raw, tree.read job.source.render = .ok content ∧ decodeBlocks content = .ok raw ∧
    source = Text.unifyReturns raw

/-- The place where a job puts its output. -/
def Job.WritesTo (tree : Tree) (job : Job) (l : Location) : Prop :=
  tree.writable job.target.render = .ok l

/-- A job that can be done: its files are accessible and its text has no fault. -/
def Job.Compiles (tree : Tree) (job : Job) : Prop :=
  ∃ source l n, job.Reads tree source ∧ job.WritesTo tree l ∧
    (compile false source).result = .ok n

theorem Job.Reads.unique {tree : Tree} {job : Job} {s s' : Text} (h : job.Reads tree s)
    (h' : job.Reads tree s') : s = s' := by
  obtain ⟨content, raw, hread, hraw, rfl⟩ := h
  obtain ⟨content', raw', hread', hraw', rfl⟩ := h'
  obtain rfl := Except.ok.inj (hread.symm.trans hread')
  obtain rfl := Except.ok.inj (hraw.symm.trans hraw')
  rfl

theorem Job.WritesTo.unique {tree : Tree} {job : Job} {l l' : Location} (h : job.WritesTo tree l)
    (h' : job.WritesTo tree l') : l = l' :=
  Except.ok.inj (h.symm.trans h')

theorem compile_eq_false (test : Bool) (source : Text) :
    (compile test source).text = (compile false source).text ∧
      (compile test source).result = (compile false source).result := by
  cases test with
  | false => exact ⟨rfl, rfl⟩
  | true =>
    obtain ⟨htext, hresult, -⟩ := Stack.compile_test_irrelevant source
    exact ⟨htext, hresult⟩

/-! ### One job -/

section Job

variable {e : Effects} {job : Job}

/-- **What a job does** when its files are accessible: the text written goes to the place of the
output, however the compilation ends. -/
theorem compileFile_of_reads (test : Bool) {source : Text} {l : Location}
    (hreads : job.Reads e.tree source) (hwrites : job.WritesTo e.tree l) :
    ∃ e', compileFile test e job =
        (((compile false source).result.map fun _ => ()).mapError (failureStop job.source), e') ∧
      e'.tree = e.tree.put l (encode (compile false source).text) := by
  obtain ⟨content, raw, hread, hraw, rfl⟩ := hreads
  obtain ⟨htext, hresult⟩ := compile_eq_false test (Text.unifyReturns raw)
  have hsink : (compile test (Text.unifyReturns raw)).final.writer.sink.text =
      (compile false (Text.unifyReturns raw)).text := htext
  rw [compileFile]
  simp only [hread]
  rw [show e.tree.writable job.target.render = _ from hwrites]
  simp only [compileBytes, hraw, hresult, compiled, hsink]
  cases (compile false (Text.unifyReturns raw)).result with
  | error f => exact ⟨_, rfl, rfl⟩
  | ok n => exact ⟨_, rfl, rfl⟩

/-- A job leaves the tree as it is, or puts a file at the place of its output. -/
theorem tree_compileFile (test : Bool) (e : Effects) (job : Job) :
    (compileFile test e job).2.tree = e.tree ∨
      ∃ l content, job.WritesTo e.tree l ∧
        (compileFile test e job).2.tree = e.tree.put l content := by
  rw [compileFile]
  simp only
  split
  · exact .inl rfl
  · split
    · exact .inl rfl
    · rename_i l hwrites
      refine .inr ⟨l, ?_⟩
      unfold compileBytes
      split
      · exact ⟨_, hwrites, rfl⟩
      · simp only
        split
        · exact ⟨_, hwrites, rfl⟩
        · exact ⟨_, hwrites, rfl⟩

theorem exit_failureStop (source : Path) (f : Stack.Failure) (e : Effects) (print : Printer)
    (level : Level) : (e.stopped print level tool (failureStop source f)).exit = 1 := by
  cases f <;> rfl

/-- A job that does not compile stops the call, which then ends with one. -/
theorem compileFile_of_not_compiles (test : Bool) (h : ¬ job.Compiles e.tree) :
    ∃ stop, (compileFile test e job).1 = .error stop ∧
      ∀ (e' : Effects) print level, (e'.stopped print level tool stop).exit = 1 := by
  cases hread : e.tree.read job.source.render with
  | error fault =>
    refine ⟨.crash (.access fault), ?_, fun _ _ _ => rfl⟩
    simp only [compileFile, hread]
  | ok content =>
    cases hwrites : e.tree.writable job.target.render with
    | error fault =>
      refine ⟨.crash (.access fault), ?_, fun _ _ _ => rfl⟩
      simp only [compileFile, hread, hwrites]
    | ok l =>
      cases hraw : decodeBlocks content with
      | error fault =>
        refine ⟨.crash (.decoding fault), ?_, fun _ _ _ => rfl⟩
        simp only [compileFile, hread, hwrites, compileBytes, hraw]
      | ok raw =>
        have hreads : job.Reads e.tree (Text.unifyReturns raw) := ⟨content, raw, hread, hraw, rfl⟩
        obtain ⟨e', hcompile, -⟩ := compileFile_of_reads test hreads hwrites
        cases hresult : (compile false (Text.unifyReturns raw)).result with
        | ok n => exact absurd ⟨_, l, n, hreads, hwrites, hresult⟩ h
        | error f =>
          rw [hcompile, hresult]
          exact ⟨failureStop job.source f, rfl, exit_failureStop job.source f⟩

end Job

/-! ### One job after the other -/

/-- No job writes where a source is. -/
def Separate (tree : Tree) (js : List Job) : Prop :=
  ∀ j ∈ js, ∀ j' ∈ js, ∀ l, tree.locate j.source.render = .ok l → ¬ j'.WritesTo tree l

/-- A tree that some of the jobs have come from the one at the start to: files have been put at the
places of outputs. -/
structure Kept (tree : Tree) (js : List Job) (t : Tree) : Prop where
  directories : tree.SameDirectories t
  changed : ∀ x, t.get? x = tree.get? x ∨
    (∃ j ∈ js, j.WritesTo tree x) ∧ ∃ content, t.get? x = some (.file content)

section Kept

variable {tree t : Tree} {js : List Job}

theorem Kept.start (tree : Tree) (js : List Job) : Kept tree js tree :=
  ⟨.rfl tree, fun _ => .inl rfl⟩

theorem Kept.eq_of_forall {x : Location} (h : Kept tree js t) (hx : ∀ j ∈ js, ¬ j.WritesTo tree x) :
    t.get? x = tree.get? x := by
  rcases h.changed x with heq | ⟨⟨j, hj, hwrites⟩, -⟩
  · exact heq
  · exact absurd hwrites (hx j hj)

theorem Kept.writesTo_iff (h : Kept tree js t) {job : Job} {l : Location} :
    job.WritesTo t l ↔ job.WritesTo tree l := h.directories.writable_iff

theorem ne_nil_of_writesTo {job : Job} {l : Location} (h : job.WritesTo t l) : l ≠ [] := by
  rintro rfl
  exact (Tree.writable_iff.mp h).2.2 rfl

theorem Kept.put {job : Job} {l : Location} (h : Kept tree js t) (hjob : job ∈ js)
    (hwrites : job.WritesTo tree l) (content : Bytes) : Kept tree js (t.put l content) := by
  have hfree := (Tree.writable_iff.mp (h.writesTo_iff.mpr hwrites)).2.2
  refine ⟨h.directories.trans (Tree.sameDirectories_put hfree content), fun x => ?_⟩
  by_cases hx : x = l
  · subst hx
    exact .inr ⟨⟨job, hjob, hwrites⟩, content,
      t.get?_put_self (ne_nil_of_writesTo hwrites) content⟩
  · rw [t.get?_put_of_ne hx]
    exact h.changed x

/-- What a job reads is what it would have read at the start. -/
theorem Kept.read_iff (h : Kept tree js t) (hseparate : Separate tree js) {job : Job}
    (hjob : job ∈ js) {content : Bytes} :
    t.read job.source.render = .ok content ↔ tree.read job.source.render = .ok content := by
  rw [Tree.read_iff, Tree.read_iff]
  refine exists_congr fun l => ?_
  rw [h.directories.locate_iff]
  refine and_congr_right fun hlocate => ?_
  rw [h.eq_of_forall fun j hj => hseparate job hjob j hj l hlocate]

/-- What is at the place of an output is what is read there. -/
theorem Kept.read_target (h : Kept tree js t) {job : Job} {l : Location} {content : Bytes}
    (hwrites : job.WritesTo tree l) (hget : t.get? l = some (.file content)) :
    t.read job.target.render = .ok content :=
  Tree.read_iff.mpr
    ⟨l, h.directories.locate_iff.mpr (Tree.writable_iff.mp hwrites).2.1, hget⟩

theorem Kept.reads_iff (h : Kept tree js t) (hseparate : Separate tree js) {job : Job}
    (hjob : job ∈ js) {source : Text} : job.Reads t source ↔ job.Reads tree source := by
  simp only [Job.Reads, h.read_iff hseparate hjob]

theorem Kept.compiles_iff (h : Kept tree js t) (hseparate : Separate tree js) {job : Job}
    (hjob : job ∈ js) : job.Compiles t ↔ job.Compiles tree := by
  simp only [Job.Compiles, h.reads_iff hseparate hjob, h.writesTo_iff]

theorem Kept.compileFile {test : Bool} {e : Effects} {job : Job} (h : Kept tree js e.tree)
    (hjob : job ∈ js) : Kept tree js (compileFile test e job).2.tree := by
  rcases tree_compileFile test e job with heq | ⟨l, content, hwrites, heq⟩
  · rw [heq]
    exact h
  · rw [heq]
    exact h.put hjob (h.writesTo_iff.mp hwrites) content

/-- **A run changes nothing but outputs.** -/
theorem Kept.compileFiles {test : Bool} {e : Effects} {more : List Job} (h : Kept tree js e.tree)
    (hmore : ∀ j ∈ more, j ∈ js) : Kept tree js (compileFiles test e more).2.tree := by
  induction more generalizing e with
  | nil => exact h
  | cons job more ih =>
    have hjob : Kept tree js (Compiler.compileFile test e job).2.tree :=
      h.compileFile (hmore job (List.mem_cons_self ..))
    rw [Compiler.compileFiles]
    cases hresult : Compiler.compileFile test e job with
    | mk result e' =>
      rw [hresult] at hjob
      cases result with
      | error stop => exact hjob
      | ok => exact ih hjob fun j hj => hmore j (List.mem_cons_of_mem _ hj)

end Kept

/-! ### Runs -/

section Run

variable {test : Bool} {tree : Tree} {js : List Job}

/-- The outputs of jobs that are all done: each place holds what the last job that writes there has
compiled. -/
def Holds (tree : Tree) (js : List Job) (t : Tree) : Prop :=
  ∀ before job after source l, js = before ++ job :: after → job.Reads tree source →
    job.WritesTo tree l → (∀ j ∈ after, ¬ j.WritesTo tree l) →
    t.get? l = some (.file (encode (compile false source).text))

theorem compileFiles_cons_of_ok {e e' : Effects} {job : Job}
    (h : compileFile test e job = (.ok (), e')) (more : List Job) :
    compileFiles test e (job :: more) = compileFiles test e' more := by
  rw [compileFiles, h]

theorem compileFiles_cons_of_error {e e' : Effects} {job : Job} {stop : Stop}
    (h : compileFile test e job = (.error stop, e')) (more : List Job) :
    compileFiles test e (job :: more) = (.error stop, e') := by
  rw [compileFiles, h]

/-- **Jobs that compile are done**, whatever follows them. -/
theorem compileFiles_of_compiles (test : Bool) {e : Effects} {done : List Job}
    (hkept : Kept tree js e.tree) (hseparate : Separate tree js) (hdone : ∀ j ∈ done, j ∈ js)
    (hcompiles : ∀ j ∈ done, j.Compiles tree) (rest : List Job) :
    ∃ e', compileFiles test e (done ++ rest) = compileFiles test e' rest ∧
      Kept tree js e'.tree ∧ Holds tree done e'.tree ∧
      ∀ x, (∀ j ∈ done, ¬ j.WritesTo tree x) → e'.tree.get? x = e.tree.get? x := by
  induction done generalizing e with
  | nil => exact ⟨e, rfl, hkept, fun before _ _ _ _ h => by simp at h, fun _ _ => rfl⟩
  | cons job more ih =>
    have hjob : job ∈ js := hdone job (List.mem_cons_self ..)
    obtain ⟨source, l, n, hreads, hwrites, hresult⟩ := hcompiles job (List.mem_cons_self ..)
    obtain ⟨e₁, hcompile, htree⟩ := compileFile_of_reads test
      ((hkept.reads_iff hseparate hjob).mpr hreads) (hkept.writesTo_iff.mpr hwrites)
    rw [hresult] at hcompile
    have hkept₁ : Kept tree js e₁.tree := htree ▸ hkept.put hjob hwrites _
    obtain ⟨e', hrun, hkept', hholds, hsame⟩ := ih hkept₁
      (fun j hj => hdone j (List.mem_cons_of_mem _ hj))
      (fun j hj => hcompiles j (List.mem_cons_of_mem _ hj))
    refine ⟨e', (compileFiles_cons_of_ok hcompile _).trans hrun, hkept', ?_, fun x hx => ?_⟩
    · intro before job' after source' l' hsplit hreads' hwrites' hafter
      cases before with
      | nil =>
        obtain ⟨rfl, rfl⟩ := List.cons.inj hsplit
        obtain rfl := hreads.unique hreads'
        obtain rfl := hwrites.unique hwrites'
        rw [hsame l hafter, htree]
        exact e.tree.get?_put_self (ne_nil_of_writesTo hwrites) _
      | cons first before =>
        obtain ⟨-, htail⟩ := List.cons.inj hsplit
        exact hholds before job' after source' l' htail hreads' hwrites' hafter
    · have hne : x ≠ l := by
        rintro rfl
        exact hx job (List.mem_cons_self ..) hwrites
      rw [hsame x fun j hj => hx j (List.mem_cons_of_mem _ hj), htree]
      exact e.tree.get?_put_of_ne hne _

end Run

/-! ### The jobs of a call -/

section Jobs

variable {tree : Tree} {r : Request} {js : List Job}

theorem isProper_source {args : List Text} (h : request tree args = .ok r) :
    r.source.IsProper := by
  unfold request at h
  split at h
  · cases h
  · rename_i parsed _
    -- after the checks, the source is what was read from an argument
    simp only [bind, Except.bind, pure, Except.pure, throw, throwThe, MonadExceptOf.throw] at h
    repeat' split at h
    all_goals cases h
    all_goals exact Path.isProper_parse _

theorem eq_of_directoryJobs (h : directoryJobs tree r = .ok js) :
    js = (sources tree r.source).map Job.beside := by
  unfold directoryJobs at h
  split at h
  · cases h
  · simp only at h
    split at h
    · cases h
    · exact (Except.ok.inj h).symm

/-- The sources of a directory are the entries right below it with the suffix of a source. -/
theorem mem_sources_iff {p f : Path} :
    f ∈ sources tree p ↔ ∃ l t, tree.locate p.render = .ok l ∧
      tree.get? (l ++ [t ++ sourceSuffix]) ≠ none ∧ f = p.child (t ++ sourceSuffix) := by
  unfold sources
  cases hlocate : tree.locate p.render with
  | error fault => simp
  | ok l =>
    simp only [List.mem_map, List.mem_filter, Tree.mem_names_iff]
    constructor
    · rintro ⟨name, ⟨hentry, hsuffix⟩, rfl⟩
      obtain ⟨t, rfl⟩ := List.isSuffixOf_iff_suffix.mp hsuffix
      exact ⟨l, t, rfl, hentry, rfl⟩
    · rintro ⟨_, t, hl, hentry, rfl⟩
      cases hl
      exact ⟨t ++ sourceSuffix, ⟨hentry, List.isSuffixOf_iff_suffix.mpr ⟨t, rfl⟩⟩, rfl⟩

/-- In a directory no output is written over a source, since their names end otherwise. -/
theorem separate_directoryJobs (h : directoryJobs tree r = .ok js) : Separate tree js := by
  intro j hj j' hj' l hlocate hwrites
  rw [eq_of_directoryJobs h] at hj hj'
  obtain ⟨source, hsource, rfl⟩ := List.mem_map.mp hj
  obtain ⟨source', hsource', rfl⟩ := List.mem_map.mp hj'
  obtain ⟨-, t, -, -, rfl⟩ := mem_sources_iff.mp hsource
  obtain ⟨u, hu⟩ := Path.exists_render_eq_append r.source.root r.source.names (t ++ sourceSuffix)
  obtain ⟨v, hv⟩ := Path.exists_render_eq_append source'.root source'.names.dropLast
    (Files.stem source'.name ++ targetSuffix)
  have hsource : tree.locate ((u ++ t) ++ sourceSuffix) = .ok l := by
    rw [List.append_assoc, ← hu]
    exact hlocate
  have htarget : tree.locate ((v ++ Files.stem source'.name) ++ targetSuffix) = .ok l := by
    rw [List.append_assoc, ← hv]
    exact (Tree.writable_iff.mp hwrites).2.1
  obtain ⟨above, x, rfl⟩ := Tree.exists_of_locate_append (by decide) (by decide) hsource
  obtain ⟨above', y, hy⟩ := Tree.exists_of_locate_append (by decide) (by decide) htarget
  obtain ⟨-, hname⟩ := List.append_inj' hy rfl
  have hends : sourceSuffix <:+ targetSuffix :=
    List.suffix_of_suffix_length_le ⟨x, (List.cons.inj hname).1⟩ ⟨y, rfl⟩ (by decide)
  exact absurd hends (by decide)

/-- The output of a single file is not written over it: they are resolved to different places. -/
theorem separate_fileJob (hproper : r.source.IsProper) (h : fileJob tree r = .ok js) :
    Separate tree js := by
  unfold fileJob at h
  split at h
  · cases h
  · split at h
    · cases h
    · rename_i hresolve
      cases h
      intro j hj j' hj' l hlocate hwrites
      obtain rfl := List.mem_singleton.mp hj
      obtain rfl := List.mem_singleton.mp hj'
      have htarget : (targetOf r).IsProper := by
        unfold targetOf
        split
        · split
          · exact hproper.withSuffix (by decide) (by decide)
          · exact Path.isProper_parse _
        · exact hproper.withSuffix (by decide) (by decide)
      have hl := Files.eq_resolve_of_locate hproper hlocate
      have hl' := Files.eq_resolve_of_locate htarget (Tree.writable_iff.mp hwrites).2.1
      exact hresolve (beq_iff_eq.mpr (hl'.symm.trans hl))

/-- **No call writes over a source.** -/
theorem separate_jobs (hproper : r.source.IsProper) (h : jobs tree r = .ok js) :
    Separate tree js := by
  unfold jobs at h
  split at h
  · exact separate_directoryJobs h
  · exact separate_fileJob hproper h

/-- The jobs are in the order of the names of their sources. -/
theorem pairwise_jobs (h : jobs tree r = .ok js) :
    js.Pairwise fun j j' => Text.notAfter j.source.name j'.source.name = true := by
  unfold jobs at h
  split at h
  · rw [eq_of_directoryJobs h, List.pairwise_map]
    unfold sources
    split
    · exact .nil
    · rw [List.pairwise_map]
      refine ((tree.pairwise_names _).filter _).imp fun hnames => ?_
      simpa only [Job.beside, Path.name_child] using hnames
  · unfold fileJob at h
    split at h
    · cases h
    · split at h
      · cases h
      · cases h; exact List.pairwise_singleton _ _

end Jobs

/-! ### Calls -/

/-- What a call leaves behind that has done the jobs `before` and was stopped by a diagnostic in the
text `source` of `job`. -/
structure StoppedAt (print : Printer) (tree : Tree) (level : Level) (before : List Job) (job : Job)
    (source : Text) (report : Report) : Prop where
  /-- Outputs that no later job writes to are whole. -/
  earlier : ∀ first j rest text l, before = first ++ j :: rest → j.Reads tree text →
    j.WritesTo tree l → (∀ j' ∈ rest ++ [job], ¬ j'.WritesTo tree l) →
    report.tree.read j.target.render = .ok (encode (compile false text).text)
  /-- The output of the job holds the code of the commands before the fault. -/
  output : ∃ code, Stack.Lowers 0
      ((Stack.completed (Stack.sourceLines source)).map (·.operation)) code ∧
    report.tree.read job.target.render =
      .ok (encode (Text.ofLines (code.map Hack.Line.render)))
  /-- No other place is touched. -/
  elsewhere : ∀ x, (∀ j ∈ before ++ [job], ¬ j.WritesTo tree x) →
    report.tree.get? x = tree.get? x
  exit : report.exit = 1
  crash : report.crash = none
  /-- The line at fault is the first that has a fault. It is named after the path, and what is
  printed for it differs from that, if at all, in the path. -/
  errors : ∃ k cause notices,
    (Stack.sourceLines source).find? (fun line => (Stack.faultOn? line).isSome) = some k ∧
    Stack.faultOn? k = some (.diagnostic ⟨cause, some k.number⟩) ∧
    report.errors = Notice.journal level notices ++ print.errors (errorLine
      (named job.source ++ ":" ++ toString (k.number : Int) ++ ": " ++ cause.reason)) ∧
    (IsEcho print.errors → report.errors = Notice.journal level notices ++ ("Error: "
      ++ print.errors (named job.source) ++ ":" ++ toString (k.number : Int) ++ ": "
      ++ cause.reason ++ "\n"))
  /-- A path without an escape is printed as it is. -/
  path : IsEcho print.errors → Plain (named job.source) →
    print.errors (named job.source) = named job.source

section Call

variable {print : Printer} {tree : Tree} {args : List Text} {r : Request} {js : List Job}

theorem call_of_jobs (hr : request tree args = .ok r) (hjs : jobs tree r = .ok js) :
    call print tree args = (compileFiles r.test ⟨tree, [], []⟩ js).2.report print r.level tool
      (compileFiles r.test ⟨tree, [], []⟩ js).1 := by
  simp only [call, hr, hjs]

theorem tree_report (e : Effects) (level : Level) (result : Except Stop Unit) :
    (e.report print level tool result).tree = e.tree := by
  cases result with
  | ok => rfl
  | error stop => cases stop <;> rfl

theorem tree_call_of_jobs (hr : request tree args = .ok r) (hjs : jobs tree r = .ok js) :
    (call print tree args).tree = (compileFiles r.test ⟨tree, [], []⟩ js).2.tree := by
  rw [call_of_jobs hr hjs, tree_report]

theorem kept_call (hr : request tree args = .ok r) (hjs : jobs tree r = .ok js) :
    Kept tree js (call print tree args).tree := by
  rw [tree_call_of_jobs hr hjs]
  exact Kept.compileFiles (Kept.start tree js) fun _ hj => hj

/-- All jobs compile, or there is a first that does not. -/
theorem forall_or_exists_first (tree : Tree) (js : List Job) :
    (∀ j ∈ js, j.Compiles tree) ∨ ∃ before job after, js = before ++ job :: after ∧
      (∀ j ∈ before, j.Compiles tree) ∧ ¬ job.Compiles tree := by
  induction js with
  | nil => exact .inl nofun
  | cons job more ih =>
    by_cases hjob : job.Compiles tree
    · rcases ih with hall | ⟨before, last, after, rfl, hbefore, hlast⟩
      · exact .inl (List.forall_mem_cons.mpr ⟨hjob, hall⟩)
      · exact .inr ⟨job :: before, last, after, rfl,
          List.forall_mem_cons.mpr ⟨hjob, hbefore⟩, hlast⟩
    · exact .inr ⟨[], job, more, rfl, nofun, hjob⟩

/-- A call succeeds if all of its jobs compile, and only then. -/
theorem exit_call_iff (hr : request tree args = .ok r) (hjs : jobs tree r = .ok js) :
    (call print tree args).exit = 0 ↔ ∀ j ∈ js, j.Compiles tree := by
  have hseparate := separate_jobs (isProper_source hr) hjs
  rw [call_of_jobs hr hjs]
  rcases forall_or_exists_first tree js with hall | ⟨before, job, after, rfl, hbefore, hjob⟩
  · obtain ⟨e', hrun, -⟩ := compileFiles_of_compiles r.test (e := ⟨tree, [], []⟩)
      (Kept.start tree js) hseparate (fun _ hj => hj) hall []
    rw [List.append_nil] at hrun
    rw [hrun]
    exact iff_of_true rfl hall
  · have hmem : job ∈ before ++ job :: after := by simp
    obtain ⟨e', hrun, hkept, -⟩ := compileFiles_of_compiles r.test (e := ⟨tree, [], []⟩)
      (Kept.start tree (before ++ job :: after)) hseparate
      (fun _ hj => List.mem_append_left _ hj) hbefore (job :: after)
    obtain ⟨stop, hstop, hexit⟩ := compileFile_of_not_compiles r.test
      (mt (hkept.compiles_iff hseparate hmem).mp hjob)
    rw [hrun, compileFiles_cons_of_error (Prod.ext hstop rfl)]
    refine iff_of_false (fun hzero => ?_) fun hall => hjob (hall job hmem)
    rw [show (Effects.report _ _ _ _ (.error stop)).exit = 1 from hexit _ _ _] at hzero
    cases hzero

/-- **A call that a diagnostic stops.** -/
theorem stoppedAt_call (hr : request tree args = .ok r) {before after : List Job} {job : Job}
    (hjs : jobs tree r = .ok (before ++ job :: after)) (hbefore : ∀ j ∈ before, j.Compiles tree)
    {source : Text} {l : Location} {d : Stack.Diagnostic} (hreads : job.Reads tree source)
    (hwrites : job.WritesTo tree l)
    (hresult : (compile false source).result = .error (.diagnostic d)) :
    StoppedAt print tree r.level before job source (call print tree args) := by
  have hseparate := separate_jobs (isProper_source hr) hjs
  have hmem : job ∈ before ++ job :: after := by simp
  obtain ⟨e₁, hrun, hkept, hholds, hsame⟩ := compileFiles_of_compiles r.test (e := ⟨tree, [], []⟩)
    (Kept.start tree (before ++ job :: after)) hseparate
    (fun _ hj => List.mem_append_left _ hj) hbefore (job :: after)
  obtain ⟨e₂, hcompile, htree⟩ := compileFile_of_reads r.test
    ((hkept.reads_iff hseparate hmem).mpr hreads) (hkept.writesTo_iff.mpr hwrites)
  -- the fault is the first in the text, and names its line
  obtain ⟨k, hfind, hfault⟩ := Stack.exists_find?_of_error hresult
  obtain ⟨cause, hreported, hd⟩ : ∃ cause : Stack.Cause, cause.IsReported ∧
      Stack.Failure.diagnostic d = Stack.failAt k.number cause := by
    cases Stack.arisesOn_faultOn? hfault with
    | diagnostic hreported => exact ⟨_, hreported, rfl⟩
  rw [hresult, hd] at hcompile
  have hcall : call print tree args = e₂.stopped print r.level tool
      (failureStop job.source (Stack.failAt k.number cause)) := by
    rw [call_of_jobs hr hjs, hrun, compileFiles_cons_of_error hcompile]
    rfl
  have hfinal : (call print tree args).tree =
      e₁.tree.put l (encode (compile false source).text) := by
    rw [hcall, ← htree]
    rfl
  constructor
  case earlier =>
    intro first j rest text place hsplit hreads' hwrites' hlater
    have hne : place ≠ l := by
      rintro rfl
      exact hlater job (by simp) hwrites
    refine (kept_call hr hjs).read_target hwrites' ?_
    rw [hfinal, e₁.tree.get?_put_of_ne hne]
    exact hholds first j rest text place hsplit hreads' hwrites' fun j' hj' =>
      hlater j' (List.mem_append_left _ hj')
  case output =>
    obtain ⟨code, hlowers, htext, -⟩ := Stack.lowers_of_completed false source
    refine ⟨code, hlowers, (kept_call hr hjs).read_target hwrites ?_⟩
    rw [hfinal, htext]
    exact e₁.tree.get?_put_self (ne_nil_of_writesTo hwrites) _
  case elsewhere =>
    intro x hx
    have hne : x ≠ l := by
      rintro rfl
      exact hx job (by simp) hwrites
    rw [hfinal, e₁.tree.get?_put_of_ne hne]
    exact hsame x fun j hj => hx j (List.mem_append_left _ hj)
  case exit => rw [hcall]; rfl
  case crash => rw [hcall]; rfl
  case errors =>
    have herrors : (call print tree args).errors = Notice.journal r.level e₂.notices ++
        print.errors (errorLine
          (named job.source ++ ":" ++ toString (k.number : Int) ++ ": " ++ cause.reason)) := by
      rw [hcall]
      rfl
    refine ⟨k, cause, e₂.notices, hfind, ?_, herrors, fun hprint => ?_⟩
    · rw [hfault, hd]
      rfl
    · rw [herrors, hprint.errorLine_reported job.source k.number hreported]
  case path => exact fun hprint hpath => hprint.of_plain hpath

end Call

/-- **What a call changes.** If there are no jobs for it, nothing is changed. Otherwise nothing but
the outputs of the jobs is, and no source; the jobs are in the order of the names of their sources,
and the call succeeds exactly if all of them compile. If the first that does not is stopped by a
diagnostic, the outputs before it are whole, its own holds the code of the commands before the
fault, those after it are not touched, and the line that reports the fault names the path, the line
and the reason. All of this comes out as it is, but for control sequences in the path where they
are not printed. -/
theorem call_changes_only_outputs (print : Printer) {tree : Tree} {args : List Text} {r : Request}
    (hr : request tree args = .ok r) :
    (∀ stop, jobs tree r = .error stop → (call print tree args).tree = tree) ∧
    ∀ js, jobs tree r = .ok js →
      (∀ x, (call print tree args).tree.get? x = tree.get? x ∨ (∃ j ∈ js, j.WritesTo tree x) ∧
        ∃ content, (call print tree args).tree.get? x = some (.file content)) ∧
      (∀ j ∈ js, ∀ content, (call print tree args).tree.read j.source.render = .ok content ↔
        tree.read j.source.render = .ok content) ∧
      (js.Pairwise fun j j' => Text.notAfter j.source.name j'.source.name = true) ∧
      ((call print tree args).exit = 0 ↔ ∀ j ∈ js, j.Compiles tree) ∧
      ∀ before job after source l d, js = before ++ job :: after →
        (∀ j ∈ before, j.Compiles tree) → job.Reads tree source → job.WritesTo tree l →
        (compile false source).result = .error (.diagnostic d) →
        StoppedAt print tree r.level before job source (call print tree args) := by
  refine ⟨fun stop hstop => ?_, fun js hjs => ?_⟩
  · simp only [call, hr, hstop]
    exact tree_report ⟨tree, [], []⟩ r.level (.error stop)
  · have hkept : Kept tree js (call print tree args).tree := kept_call hr hjs
    refine ⟨hkept.changed, fun j hj content => ?_, pairwise_jobs hjs, exit_call_iff hr hjs, ?_⟩
    · exact hkept.read_iff (separate_jobs (isProper_source hr) hjs) hj
    · rintro before job after source l d rfl hbefore hreads hwrites hresult
      exact stoppedAt_call hr hjs hbefore hreads hwrites hresult

/-- The path of the directory below. -/
def faultyPath : Path := ⟨[], ["d".toList]⟩

/-- A directory with a source that compiles, one with a fault on its second line, and one after
these, whose output is there from an earlier call. -/
def faultyDirectory : Tree where
  entries :=
    [(["d".toList], .directory),
      (["d".toList, "a.vm".toList], .file (encode "neg".toList)),
      (["d".toList, "b.vm".toList], .file (encode "add\nbad\n".toList)),
      (["d".toList, "c.asm".toList], .file (encode "old".toList)),
      (["d".toList, "c.vm".toList], .file (encode "not".toList))]
  here := []

theorem jobs_faultyDirectory :
    jobs faultyDirectory ⟨faultyPath, none, false, .warning⟩ =
      .ok ([Job.beside (faultyPath.child "a.vm".toList)] ++
        Job.beside (faultyPath.child "b.vm".toList) ::
          [Job.beside (faultyPath.child "c.vm".toList)]) := by
  have hnames : faultyDirectory.names ["d".toList] =
      ["a.vm".toList, "b.vm".toList, "c.asm".toList, "c.vm".toList] :=
    List.mergeSort_of_pairwise (by decide)
  have hsources : sources faultyDirectory faultyPath =
      ["a.vm".toList, "b.vm".toList, "c.vm".toList].map faultyPath.child := by
    rw [sources, show faultyDirectory.locate faultyPath.render = .ok ["d".toList] from rfl]
    simp only [hnames]
    rfl
  rw [jobs, directoryJobs, hsources]
  rfl

theorem call_faultyDirectory_stopped :
    IsEcho (Printer.onto true false).errors ∧
      request faultyDirectory ["d".toList] = .ok ⟨faultyPath, none, false, .warning⟩ ∧
      StoppedAt (.onto true false) faultyDirectory .warning
        [Job.beside (faultyPath.child "a.vm".toList)] (Job.beside (faultyPath.child "b.vm".toList))
        "add\nbad\n".toList (call (.onto true false) faultyDirectory ["d".toList]) := by
  have hr : request faultyDirectory ["d".toList] = .ok ⟨faultyPath, none, false, .warning⟩ := rfl
  obtain ⟨-, -, -, -, hstopped⟩ :=
    (call_changes_only_outputs (.onto true false) hr).2 _ jobs_faultyDirectory
  refine ⟨isEcho_onto true false, hr, hstopped _ _ _ _ ["d".toList, "b.asm".toList]
    ⟨.unknownWord "bad".toList, some 2⟩ rfl (List.forall_mem_singleton.mpr ?_) ?_ rfl rfl⟩
  · exact ⟨"neg".toList, ["d".toList, "a.asm".toList], 4,
      ⟨_, _, rfl, Text.Utf8.decodeBlocks_encode _, rfl⟩, rfl, rfl⟩
  · exact ⟨_, _, rfl, Text.Utf8.decodeBlocks_encode _, rfl⟩

/-- Where control sequences are not printed, one in the path of a source is missing from the line
that reports a fault. -/
theorem call_errors_without_control :
    IsEcho (Printer.onto false false).errors ∧
      (call (.onto false false) ⟨[(["\x1b[1ma.vm".toList], .file [0x70, 0x6f, 0x70])], []⟩
        ["\x1b[1ma.vm".toList]).errors = "Error: a.vm:1: pop needs an argument\n" := by
  have hprint := isEcho_onto false false
  have hpath : (Printer.onto false false).errors "\x1b[1ma.vm" = "a.vm" := by
    have hcontrol : Text.afterControl? "\x1b[1ma.vm".toList = some "a.vm".toList := rfl
    show unstyled "\x1b[1ma.vm" = "a.vm"
    rw [unstyled, Text.unstyled, Text.unstyledOnto_of_some hcontrol,
      Text.unstyledOnto_of_not_mem (by decide)]
    rfl
  have hline := hprint.errorLine_reported ⟨[], ["\x1b[1ma.vm".toList]⟩ 1 (.noArgument .pop)
  have herrors : (call (.onto false false)
      ⟨[(["\x1b[1ma.vm".toList], .file [0x70, 0x6f, 0x70])], []⟩ ["\x1b[1ma.vm".toList]).errors =
        "" ++ (Printer.onto false false).errors (errorLine
          (named ⟨[], ["\x1b[1ma.vm".toList]⟩ ++ ":" ++ toString (1 : Int) ++ ": "
            ++ (Stack.Cause.noArgument "pop".toList).reason)) := rfl
  refine ⟨hprint, ?_⟩
  rw [herrors, String.empty_append]
  refine hline.trans ?_
  rw [show named ⟨[], ["\x1b[1ma.vm".toList]⟩ = "\x1b[1ma.vm" from rfl, hpath]
  rfl

end HackStack.Cli.Compiler
