import HackStack.Files.Tree

/-!
# Where paths lead

A path that leads somewhere leads to the place that its pieces name one after the other
(`eq_of_locate`), and the directories on the way alone decide whether it does. A file that is put
where no directory is leaves the directories as they were (`sameDirectories_put`), so that every
path leads where it led before (`SameDirectories.locate_iff`), and what is found there is changed
at that one place only.

A proper path, such as every path that was read, has the pieces it was made of when it is written
(`pieces_render`). So it leads to the place that `resolve` gives for its names
(`eq_resolve_of_locate`).
-/

namespace HackStack.Files

open Text.Utf8 (Bytes)

/-! ### One piece after the other -/

namespace Tree

variable {t t' : Tree} {l m : Location} {path : Text}

theorem follow_cons_iff {piece : Text} {more : List Text} :
    t.follow l (piece :: more) = .ok m ↔ t.get? l = some .directory ∧
      byteLength piece ≤ nameLimit ∧ t.follow (l.step piece) more = .ok m := by
  rw [follow]
  split
  · rename_i h; simp [h]
  · rename_i h; simp [h]
  · rename_i h
    split
    · rename_i hlong; simp [Nat.not_le.mpr hlong]
    · rename_i hshort; simp [h, Nat.le_of_not_lt hshort]

theorem follow_append_iff {ps qs : List Text} :
    t.follow l (ps ++ qs) = .ok m ↔ ∃ k, t.follow l ps = .ok k ∧ t.follow k qs = .ok m := by
  induction ps generalizing l with
  | nil => simp [follow]
  | cons piece more ih =>
    rw [List.cons_append, follow_cons_iff, ih]
    simp only [follow_cons_iff]
    constructor
    · rintro ⟨hdirectory, hshort, k, hmore, hqs⟩
      exact ⟨k, ⟨hdirectory, hshort, hmore⟩, hqs⟩
    · rintro ⟨k, ⟨hdirectory, hshort, hmore⟩, hqs⟩
      exact ⟨hdirectory, hshort, k, hmore, hqs⟩

theorem eq_of_follow {ps : List Text} (h : t.follow l ps = .ok m) :
    m = ps.foldl Location.step l := by
  induction ps generalizing l with
  | nil => exact (Except.ok.inj h).symm
  | cons piece more ih => exact ih (follow_cons_iff.mp h).2.2

theorem locate_iff :
    t.locate path = .ok l ↔ path ≠ [] ∧ byteLength path ≤ pathLimit ∧
      t.follow (t.startOf path) (pieces path) = .ok l := by
  rw [locate, followFrom]
  split
  · rename_i h; simp [List.isEmpty_iff.mp h]
  · rename_i h
    have hne : path ≠ [] := fun heq => h (List.isEmpty_iff.mpr heq)
    split
    · rename_i hlong; simp [Nat.not_le.mpr hlong]
    · rename_i hshort; simp [hne, Nat.le_of_not_lt hshort]

/-- **Where a path leads** is said by its pieces. -/
theorem eq_of_locate (h : t.locate path = .ok l) :
    l = (pieces path).foldl Location.step (t.startOf path) :=
  eq_of_follow (locate_iff.mp h).2.2

theorem read_iff {content : Bytes} :
    t.read path = .ok content ↔ ∃ l, t.locate path = .ok l ∧ t.get? l = some (.file content) := by
  rw [read, stat]
  cases hlocate : t.locate path with
  | error fault => simp
  | ok l =>
    cases hget : t.get? l with
    | none => simp [hget]
    | some entry => cases entry <;> simp [hget]

theorem writable_iff :
    t.writable path = .ok l ↔ path.getLast? ≠ some slash ∧ t.locate path = .ok l ∧
      t.get? l ≠ some .directory := by
  have htarget : t.writable path = .ok l ↔ t.target path = .ok l := by
    rw [writable]
    cases t.target path with
    | error fault => exact iff_of_false (fun h => by cases h) (fun h => by cases h)
    | ok k => constructor <;> (intro h; cases h; rfl)
  rw [htarget, target]
  split
  · rename_i hslash
    have hlast : path.getLast? = some slash := by simpa using hslash
    split <;> simp [hlast]
  · rename_i hslash
    have hlast : path.getLast? ≠ some slash := by simpa using hslash
    cases hlocate : t.locate path with
    | error fault => simp
    | ok k =>
      simp only [hlast, ne_eq, not_false_eq_true, true_and, Except.ok.injEq]
      split
      · rename_i hdirectory
        simp only [reduceCtorEq, false_iff, not_and, Classical.not_not]
        rintro rfl
        simpa using hdirectory
      · rename_i hdirectory
        simp only [Except.ok.injEq]
        refine ⟨?_, And.left⟩
        rintro rfl
        exact ⟨rfl, by simpa using hdirectory⟩

/-! ### The same directories -/

/-- Two trees with the same directories and the same working directory. -/
structure SameDirectories (t t' : Tree) : Prop where
  here : t'.here = t.here
  directory_iff : ∀ l, t'.get? l = some .directory ↔ t.get? l = some .directory

theorem SameDirectories.rfl (t : Tree) : t.SameDirectories t := ⟨Eq.refl _, fun _ => Iff.rfl⟩

theorem SameDirectories.trans {t'' : Tree} (h : t.SameDirectories t')
    (h' : t'.SameDirectories t'') : t.SameDirectories t'' :=
  ⟨h'.here.trans h.here, fun l => (h'.directory_iff l).trans (h.directory_iff l)⟩

/-- A file that is put where no directory is changes no directory. -/
theorem sameDirectories_put (h : t.get? l ≠ some .directory) (content : Bytes) :
    t.SameDirectories (t.put l content) := by
  refine ⟨rfl, fun other => ?_⟩
  by_cases hother : other = l
  · have hne : l ≠ [] := by
      rintro rfl
      exact h (Eq.refl _)
    subst hother
    rw [get?_put_self t hne]
    simp [h]
  · rw [get?_put_of_ne t hother]

theorem SameDirectories.follow_iff (h : t.SameDirectories t') {ps : List Text} :
    t'.follow l ps = .ok m ↔ t.follow l ps = .ok m := by
  induction ps generalizing l with
  | nil => exact Iff.rfl
  | cons piece more ih => rw [follow_cons_iff, follow_cons_iff, h.directory_iff, ih]

/-- **Directories lead the way**: a path leads to the same place in trees with the same ones. -/
theorem SameDirectories.locate_iff (h : t.SameDirectories t') :
    t'.locate path = .ok l ↔ t.locate path = .ok l := by
  have hstart : t'.startOf path = t.startOf path := by rw [startOf, startOf, h.here]
  rw [Tree.locate_iff, Tree.locate_iff, hstart, h.follow_iff]

theorem SameDirectories.writable_iff (h : t.SameDirectories t') :
    t'.writable path = .ok l ↔ t.writable path = .ok l := by
  rw [Tree.writable_iff, Tree.writable_iff, h.locate_iff, ne_eq, ne_eq, h.directory_iff]

end Tree

/-! ### The names in a directory -/

theorem notAfter_cons_iff {c d : Char} {s t : Text} :
    Text.notAfter (c :: s) (d :: t) = true ↔
      c.toNat < d.toNat ∨ c = d ∧ Text.notAfter s t = true := by
  simp [Text.notAfter]

theorem notAfter_trans {s t u : Text} (h : Text.notAfter s t = true)
    (h' : Text.notAfter t u = true) : Text.notAfter s u = true := by
  induction s generalizing t u with
  | nil => rfl
  | cons c s ih =>
    cases t with
    | nil => cases h
    | cons d t =>
      cases u with
      | nil => cases h'
      | cons e u =>
        rw [notAfter_cons_iff] at h h' ⊢
        rcases h with hlt | ⟨rfl, hst⟩
        · rcases h' with hlt' | ⟨rfl, -⟩
          · exact .inl (Nat.lt_trans hlt hlt')
          · exact .inl hlt
        · rcases h' with hlt' | ⟨rfl, htu⟩
          · exact .inl hlt'
          · exact .inr ⟨rfl, ih hst htu⟩

theorem notAfter_total (s t : Text) : Text.notAfter s t = true ∨ Text.notAfter t s = true := by
  induction s generalizing t with
  | nil => exact .inl rfl
  | cons c s ih =>
    cases t with
    | nil => exact .inr rfl
    | cons d t =>
      rw [notAfter_cons_iff, notAfter_cons_iff]
      rcases Nat.lt_trichotomy c.toNat d.toNat with hlt | heq | hgt
      · exact .inl (.inl hlt)
      · obtain rfl := Char.toNat_inj.mp heq
        exact (ih t).imp (fun h => .inr ⟨rfl, h⟩) fun h => .inr ⟨rfl, h⟩
      · exact .inr (.inl hgt)

theorem Tree.pairwise_names (t : Tree) (l : Location) :
    (t.names l).Pairwise fun s u => Text.notAfter s u = true := by
  have htrans : ∀ s u v : Text, s.notAfter u = true → u.notAfter v = true → s.notAfter v = true :=
    fun _ _ _ => notAfter_trans
  have htotal : ∀ s u : Text, (s.notAfter u || u.notAfter s) = true := fun s u => by
    rw [Bool.or_eq_true]
    exact notAfter_total s u
  exact List.pairwise_mergeSort htrans htotal _

theorem Tree.get?_ne_none_iff {t : Tree} {l : Location} (hl : l ≠ []) :
    t.get? l ≠ none ↔ ∃ e ∈ t.entries, e.1 = l := by
  have hlookup : t.get? l = t.entries.lookup l := if_neg (by simpa using hl)
  rw [hlookup, ne_eq, List.lookup_eq_none_iff]
  constructor
  · intro hall
    refine Classical.byContradiction fun hnone => hall fun e he => ?_
    rw [bne_iff_ne]
    exact fun heq => hnone ⟨e, he, heq.symm⟩
  · rintro ⟨e, he, hplace⟩ hall
    simpa [hplace] using hall e he

/-- **The names in a directory** are those of the entries right below it. -/
theorem Tree.mem_names_iff {t : Tree} {l : Location} {name : Text} :
    name ∈ t.names l ↔ t.get? (l ++ [name]) ≠ none := by
  rw [get?_ne_none_iff (by simp), names, List.mem_mergeSort, List.mem_filterMap]
  refine exists_congr fun e => and_congr_right fun _ => ?_
  constructor
  · intro h
    split at h
    · rename_i hl
      obtain ⟨above, habove⟩ := List.getLast?_eq_some_iff.mp h
      have habove' : above = l := by simpa [habove] using hl
      rw [habove, habove']
    · cases h
  · intro h
    simp [h]

theorem Path.name_child (p : Path) (name : Text) : (p.child name).name = name := by
  simp [Path.name, Path.child]

theorem Path.child_inj {p : Path} {name other : Text} :
    p.child name = p.child other ↔ name = other := by
  simp [Path.child]

/-! ### Pieces of a written path -/

theorem Location.step_name (l : Location) {name : Text} (h : name ≠ []) (hdot : name ≠ dot)
    (hdotDot : name ≠ dotDot) : l.step name = l ++ [name] := by
  rw [step, if_neg (by simp [h, hdot]), if_neg (by simpa using hdotDot)]

theorem pieces_slash (t : Text) : pieces (slash :: t) = [] :: pieces t :=
  List.splitOn_append_cons_self [] t

/-- The last piece of a text has the end of the text, if that has no slash. -/
theorem exists_pieces_append (t : Text) {ending : Text} (h : slash ∉ ending) :
    ∃ above x, pieces (t ++ ending) = above ++ [x ++ ending] := by
  by_cases hslash : slash ∈ t.reverse
  · obtain ⟨x, before, hreverse, hx⟩ := List.eq_append_cons_of_mem hslash
    have ht : t = before.reverse ++ slash :: x.reverse := by
      rw [← t.reverse_reverse, hreverse]
      simp
    have hlast : slash ∉ x.reverse ++ ending := by simp [hx, h]
    refine ⟨pieces before.reverse, x.reverse, ?_⟩
    rw [ht, List.append_assoc, List.cons_append, pieces, List.splitOn_append_cons_self,
      List.splitOn_eq_singleton hlast]
    rfl
  · have hnone : slash ∉ t ++ ending := by simp_all
    exact ⟨[], t, List.splitOn_eq_singleton hnone⟩

/-- A path whose last letters cannot be a dot or two leads to a place with these letters. -/
theorem Tree.exists_of_locate_append {tree : Tree} {t ending : Text} {l : Location}
    (hslash : slash ∉ ending) (hlength : 2 < ending.length)
    (h : tree.locate (t ++ ending) = .ok l) : ∃ above x, l = above ++ [x ++ ending] := by
  obtain ⟨above, x, hpieces⟩ := exists_pieces_append t hslash
  have hlength' : 2 < (x ++ ending).length := by rw [List.length_append]; omega
  have hne {u : Text} (hu : u.length ≤ 2) : x ++ ending ≠ u := fun heq => by
    rw [heq] at hlength'; omega
  refine ⟨above.foldl Location.step (tree.startOf (t ++ ending)), x, ?_⟩
  rw [eq_of_locate h, hpieces, List.foldl_append, List.foldl_cons, List.foldl_nil,
    Location.step_name _ (hne (Nat.zero_le 2)) (hne (by decide)) (hne (by decide))]

/-- A path is written with its last name at the end. -/
theorem Path.exists_render_eq_append (root : Text) (names : List Text) (name : Text) :
    ∃ t, (Path.mk root (names ++ [name])).render = t ++ name := by
  have hnames : ∃ t, [slash].intercalate (names ++ [name]) = t ++ name := by
    induction names with
    | nil => exact ⟨[], List.intercalate_singleton⟩
    | cons first more ih =>
      obtain ⟨t, ht⟩ := ih
      refine ⟨first ++ [slash] ++ t, ?_⟩
      rw [List.cons_append, List.intercalate_cons_of_ne_nil (by simp), ht, List.append_assoc]
      simp
  obtain ⟨t, ht⟩ := hnames
  refine ⟨root ++ t, ?_⟩
  rw [Path.render, if_neg (by simp), ht, List.append_assoc]

/-! ### Proper paths -/

/-- A path whose root is made of slashes, and whose names are not empty and have none. -/
structure Path.IsProper (p : Path) : Prop where
  root : ∀ c ∈ p.root, c = slash
  names : ∀ name ∈ p.names, name ≠ [] ∧ slash ∉ name

/-- A path that was read is proper. -/
theorem Path.isProper_parse (t : Text) : (Path.parse t).IsProper := by
  refine ⟨fun c hc => ?_, fun name hname => ?_⟩
  · simp only [parse, rootOf] at hc
    split at hc <;> simp_all
  · obtain ⟨hpiece, hkept⟩ := List.mem_filter.mp hname
    exact ⟨by rintro rfl; simp at hkept, Text.not_mem_of_mem_splitOn hpiece⟩

/-- A proper path with another last name that has no slash. -/
theorem Path.IsProper.rename {p : Path} (h : p.IsProper) {name : Text} (hne : name ≠ [])
    (hslash : slash ∉ name) : ({ p with names := p.names.dropLast ++ [name] } : Path).IsProper := by
  refine ⟨h.root, fun other hother => ?_⟩
  rcases List.mem_append.mp hother with hmem | hmem
  · exact h.names other ((List.dropLast_sublist _).mem hmem)
  · rw [List.mem_singleton.mp hmem]
    exact ⟨hne, hslash⟩

theorem Path.IsProper.child {p : Path} (h : p.IsProper) {name : Text} (hne : name ≠ [])
    (hslash : slash ∉ name) : (p.child name).IsProper := by
  refine ⟨h.root, fun other hother => ?_⟩
  rcases List.mem_append.mp hother with hmem | hmem
  · exact h.names other hmem
  · rw [List.mem_singleton.mp hmem]
    exact ⟨hne, hslash⟩

theorem mem_of_mem_stem {name : Text} {c : Char} (h : c ∈ stem name) : c ∈ name := by
  unfold stem at h
  split at h
  · exact h
  · rw [Text.beforeLast, List.mem_reverse] at h
    exact List.mem_reverse.mp ((List.dropWhile_sublist _).mem (List.mem_of_mem_drop h))

theorem Path.IsProper.withSuffix {p : Path} (h : p.IsProper) {new : Text} (hne : new ≠ [])
    (hslash : slash ∉ new) : (p.withSuffix new).IsProper := by
  refine h.rename (by simp [hne]) fun hmem => ?_
  rcases List.mem_append.mp hmem with hstem | hnew
  · have hname := mem_of_mem_stem hstem
    rw [Path.name, List.getLastD_eq_getLast?] at hname
    cases hlast : p.names.getLast? with
    | none => rw [hlast] at hname; cases hname
    | some last =>
      rw [hlast] at hname
      exact (h.names last (List.mem_of_getLast? hlast)).2 hname
  · exact hslash hnew

section Render

variable {p : Path} (h : p.IsProper)

include h

theorem pieces_root_append (t : Text) :
    pieces (p.root ++ t) = p.root.map (fun _ => []) ++ pieces t := by
  have hroot := h.root
  generalize p.root = root at hroot
  induction root with
  | nil => rfl
  | cons c more ih =>
    obtain rfl := hroot c (List.mem_cons_self ..)
    rw [List.cons_append, pieces_slash, ih fun d hd => hroot d (List.mem_cons_of_mem _ hd)]
    rfl

/-- A proper path is written in the pieces it is made of. -/
theorem pieces_render (hnames : p.names ≠ []) :
    pieces p.render = p.root.map (fun _ => []) ++ p.names := by
  have hempty : (p.root.isEmpty && p.names.isEmpty) = false := by simp [hnames]
  rw [Path.render, hempty, if_neg Bool.false_ne_true, pieces_root_append h, pieces,
    List.splitOn_intercalate slash (fun name hname => (h.names name hname).2) hnames]

theorem head?_render : p.render.head? = some slash ↔ p.root ≠ [] := by
  cases hroot : p.root with
  | cons c more =>
    obtain rfl := h.root c (hroot ▸ List.mem_cons_self ..)
    simp [Path.render, hroot]
  | nil =>
    simp only [Path.render, hroot, List.isEmpty_nil, Bool.true_and, List.nil_append]
    cases hnames : p.names with
    | nil => decide
    | cons name more =>
      obtain ⟨hne, hslash⟩ := h.names name (hnames ▸ List.mem_cons_self ..)
      cases name with
      | nil => exact absurd rfl hne
      | cons c rest =>
        have hc : c ≠ slash := fun heq => hslash (heq ▸ List.mem_cons_self ..)
        cases more <;> simp [List.intercalate, hc]

theorem startOf_render (tree : Tree) :
    tree.startOf p.render = if p.root.isEmpty then tree.here else [] := by
  rw [Tree.startOf]
  by_cases hroot : p.root = []
  · have hhead := mt (head?_render h).mp (Classical.not_not.mpr hroot)
    simp [hroot, hhead]
  · simp [hroot, (head?_render h).mpr hroot]

theorem foldl_step_pieces_render (l : Location) :
    (pieces p.render).foldl Location.step l = p.names.foldl Location.step l := by
  have hroot (l : Location) : (p.root.map fun _ => []).foldl Location.step l = l := by
    generalize p.root = root
    induction root generalizing l with
    | nil => rfl
    | cons c more ih => exact ih l
  by_cases hnames : p.names = []
  · rw [hnames, Path.render, hnames]
    split
    · rfl
    · rw [pieces_root_append h, List.foldl_append, hroot]
      rfl
  · rw [pieces_render h hnames, List.foldl_append, hroot]

/-- **A proper path leads to the place of its names.** -/
theorem eq_resolve_of_locate {tree : Tree} {l : Location} (hl : tree.locate p.render = .ok l) :
    l = tree.resolve p := by
  rw [Tree.eq_of_locate hl, foldl_step_pieces_render h, startOf_render h, Tree.resolve]

end Render

/-! ### Paths in one directory -/

/-- A name that an entry can have. -/
structure IsName (name : Text) : Prop where
  ne_nil : name ≠ []
  slash_not_mem : slash ∉ name
  ne_dot : name ≠ dot
  ne_dotDot : name ≠ dotDot

instance (name : Text) : Decidable (IsName name) :=
  decidable_of_iff (name ≠ [] ∧ slash ∉ name ∧ name ≠ dot ∧ name ≠ dotDot)
    ⟨fun h => ⟨h.1, h.2.1, h.2.2.1, h.2.2.2⟩,
      fun h => ⟨h.ne_nil, h.slash_not_mem, h.ne_dot, h.ne_dotDot⟩⟩

/-- A tree in which every entry has a name that an entry can have. -/
def Tree.IsProper (t : Tree) : Prop := ∀ e ∈ t.entries, ∀ name ∈ e.1, IsName name

theorem Tree.IsProper.isName {t : Tree} (h : t.IsProper) {l : Location} {name : Text}
    (hget : t.get? (l ++ [name]) ≠ none) : IsName name := by
  obtain ⟨e, he, hplace⟩ := (get?_ne_none_iff (by simp)).mp hget
  exact h e he name (by simp [hplace])

theorem Path.withSuffix_child (p : Path) (name new : Text) :
    (p.child name).withSuffix new = p.child (stem name ++ new) := by
  rw [Path.withSuffix, Path.name_child, Path.child, Path.child, List.dropLast_concat]

theorem Tree.resolve_child (tree : Tree) (p : Path) {name : Text} (hname : IsName name) :
    tree.resolve (p.child name) = tree.resolve p ++ [name] := by
  rw [resolve, Path.child, List.foldl_append, List.foldl_cons, List.foldl_nil,
    Location.step_name _ hname.ne_nil hname.ne_dot hname.ne_dotDot]
  rfl

/-- **Paths in one directory** lead there together, as far as their lengths allow. -/
theorem locate_sibling {tree : Tree} {p : Path} (hp : p.IsProper) {name other : Text}
    {l : Location} (hname : IsName name) (hother : IsName other)
    (hl : tree.locate (p.child name).render = .ok l) (hshort : byteLength other ≤ nameLimit)
    (hpath : byteLength (p.child other).render ≤ pathLimit) :
    tree.locate (p.child other).render = .ok (tree.resolve p ++ [other]) := by
  have hproper := hp.child hname.ne_nil hname.slash_not_mem
  have hproper' := hp.child hother.ne_nil hother.slash_not_mem
  have hpieces {q : Text} (h : (p.child q).IsProper) :
      pieces (p.child q).render = (p.root.map (fun _ => []) ++ p.names) ++ [q] := by
    rw [pieces_render h (by simp [Path.child]), List.append_assoc]
    rfl
  have hne : (p.child other).render ≠ [] := by
    obtain ⟨t, ht⟩ := Path.exists_render_eq_append p.root p.names other
    rw [Path.child, ht]
    simp [hother.ne_nil]
  obtain ⟨-, -, hfollow⟩ := Tree.locate_iff.mp hl
  rw [startOf_render hproper, hpieces hproper] at hfollow
  obtain ⟨k, habove, hlast⟩ := Tree.follow_append_iff.mp hfollow
  obtain ⟨hdirectory, -, -⟩ := Tree.follow_cons_iff.mp hlast
  have hplace : tree.locate (p.child other).render = .ok (k.step other) := by
    refine Tree.locate_iff.mpr ⟨hne, hpath, ?_⟩
    rw [startOf_render hproper', hpieces hproper']
    exact Tree.follow_append_iff.mpr
      ⟨k, habove, Tree.follow_cons_iff.mpr ⟨hdirectory, hshort, rfl⟩⟩
  rw [hplace, eq_resolve_of_locate hproper' hplace, tree.resolve_child p hother]

end HackStack.Files
