import QuicFs.Client.Files

/-!
# The paths of a mount

The client makes paths of its remote root and of names, `child_path` in one way and `readdir`
in another. Both name the components of the directory and then the name; they are the same text
but in a directory that is `/` in another spelling. The paths made by `child_path` alone are
`Canon`; two of them are the same when they name the same components.
-/

namespace QuicFs.Client

section
variable {p : Path} {n : Name}

theorem components_of_eq_slash (h : pathComponents p = pathComponents ['/']) : components p = [] :=
  components_eq_of_pathComponents h

theorem components_joinPath (p : Path) (hn : ValidName n) :
    components (joinPath p n) = components p ++ [n] := by
  unfold joinPath
  split
  · next h =>
    rcases h with rfl | h
    · exact components_name hn
    · obtain ⟨init, rfl⟩ := List.getLast?_eq_some_iff.mp h
      rw [List.append_assoc, List.singleton_append, components_append_name init hn,
        show init ++ ['/'] = init ++ '/' :: [] from rfl, components_append_slash]
      simp [components, splitSlash]
  · exact components_append_name p hn

theorem components_childPath (p : Path) (hn : ValidName n) :
    components (childPath p n) = components p ++ [n] := by
  unfold childPath
  split
  · next e =>
    rw [components_of_eq_slash e]
    exact components_append_name [] hn
  · exact components_joinPath p hn

theorem components_rdropWhile (p : Path) : components (p.rdropWhile (· = '/')) = components p := by
  induction p using List.reverseRecOn with
  | nil => rfl
  | append_singleton q c ih =>
    by_cases hc : c = '/'
    · subst hc
      rw [List.rdropWhile_concat_pos _ _ _ (by simp), ih, components_append_slash q []]
      simp [components, splitSlash]
    · rw [List.rdropWhile_concat_neg _ _ _ (by simpa using hc)]

theorem components_entryPath (p : Path) (hn : ValidName n) :
    components (entryPath p n) = components p ++ [n] := by
  rw [entryPath, components_append_name _ hn, components_rdropWhile]

theorem childPath_eq_append (p : Path) (n : Name) : ∃ u, childPath p n = u ++ n := by
  unfold childPath joinPath
  split
  · exact ⟨['/'], rfl⟩
  · split
    · exact ⟨p, rfl⟩
    · exact ⟨p ++ ['/'], by simp⟩

theorem head?_childPath (hp : p.head? = some '/') (n : Name) :
    (childPath p n).head? = some '/' := by
  obtain ⟨q, rfl⟩ : ∃ q, p = '/' :: q := by
    cases p with
    | nil => cases hp
    | cons c q => exact ⟨q, by rw [Option.some.inj hp]⟩
  unfold childPath joinPath
  split
  · rfl
  · split <;> rfl

theorem head?_entryPath (hp : p.head? = some '/') (n : Name) :
    (entryPath p n).head? = some '/' := by
  have hpre : p.rdropWhile (· = '/') <+: p := List.rdropWhile_prefix ..
  unfold entryPath
  cases hq : p.rdropWhile (· = '/') with
  | nil => rfl
  | cons c q =>
    rw [hq] at hpre
    obtain ⟨rest, rfl⟩ := hpre
    exact hp

theorem getLast?_append_name (u : Path) (hn : ValidName n) : (u ++ n).getLast? ≠ some '/' := by
  rw [List.getLast?_append_of_ne_nil _ hn.1]
  exact fun h => hn.2.2.2 (List.mem_of_getLast? h)

theorem getLast?_childPath (p : Path) (hn : ValidName n) : (childPath p n).getLast? ≠ some '/' := by
  obtain ⟨u, hu⟩ := childPath_eq_append p n
  rw [hu]
  exact getLast?_append_name u hn

end

/-- A path with a component that does not end with a separator. -/
def Named (p : Path) : Prop := components p ≠ [] ∧ p.getLast? ≠ some '/'

theorem named_childPath (p : Path) {n : Name} (hn : ValidName n) : Named (childPath p n) :=
  ⟨by simp [components_childPath p hn], getLast?_childPath p hn⟩

theorem Named.childPath_eq {p : Path} (hp : Named p) (n : Name) :
    childPath p n = p ++ '/' :: n := by
  have hne : p ≠ [] := fun e => hp.1 (by rw [e]; rfl)
  rw [childPath, if_neg fun e => hp.1 (components_of_eq_slash e), joinPath,
    if_neg (not_or.mpr ⟨hne, hp.2⟩)]

theorem Named.foldl_childPath (ns : List Name) : ∀ {p : Path}, (∀ n ∈ ns, ValidName n) → Named p →
    ns.foldl childPath p = p ++ ns.flatMap ('/' :: ·) := by
  induction ns with
  | nil => intro p _ _; simp
  | cons n ns ih =>
    intro p h hp
    rw [List.foldl_cons, ih (fun m hm => h m (List.mem_cons_of_mem _ hm))
      (named_childPath p (h n (List.mem_cons_self ..))), hp.childPath_eq]
    simp

theorem components_foldl (ns : List Name) : ∀ {root : Path}, (∀ n ∈ ns, ValidName n) →
    components (ns.foldl childPath root) = components root ++ ns := by
  induction ns with
  | nil => intro root _; simp
  | cons n ns ih =>
    intro root h
    rw [List.foldl_cons, ih fun m hm => h m (List.mem_cons_of_mem _ hm),
      components_childPath root (h n (List.mem_cons_self ..)), List.append_assoc]
    rfl

/-- A path that `child_path` makes below `root`. -/
def Canon (root p : Path) : Prop :=
  ∃ ns : List Name, (∀ n ∈ ns, ValidName n) ∧ p = ns.foldl childPath root

section
variable {root p p' : Path}

theorem canon_root (root : Path) : Canon root root := ⟨[], by simp, rfl⟩

theorem Canon.child (h : Canon root p) {n : Name} (hn : ValidName n) :
    Canon root (childPath p n) := by
  obtain ⟨ns, hns, rfl⟩ := h
  refine ⟨ns ++ [n], fun m hm => ?_, by rw [List.foldl_append]; rfl⟩
  rcases List.mem_append.mp hm with hm | hm
  · exact hns m hm
  · exact List.mem_singleton.mp hm ▸ hn

/-- **Two paths of a mount that name the same components are the same.** -/
theorem Canon.ext (h : Canon root p) (h' : Canon root p') (he : components p = components p') :
    p = p' := by
  obtain ⟨ns, hns, rfl⟩ := h
  obtain ⟨ns', hns', rfl⟩ := h'
  rw [components_foldl ns hns, components_foldl ns' hns'] at he
  rw [List.append_cancel_left he]

/-- What is below a path by its components is below it by its text; the rest of the text names
the rest of the components also below any other path. -/
theorem Canon.below (h : Canon root p) (h' : Canon root p') (hp : Named p) {c : Name}
    {r : List Name} (he : components p' = components p ++ c :: r) : (p ++ ['/']) <+: p' ∧
      ∀ q, Named q → components (q ++ p'.drop p.length) = components q ++ c :: r := by
  obtain ⟨ns, hns, rfl⟩ := h
  obtain ⟨ns', hns', rfl⟩ := h'
  rw [components_foldl ns hns, components_foldl ns' hns', List.append_assoc] at he
  obtain rfl := List.append_cancel_left he
  have hcr : ∀ n ∈ c :: r, ValidName n := fun n hn => hns' n (List.mem_append_right _ hn)
  rw [List.foldl_append, hp.foldl_childPath _ hcr]
  refine ⟨⟨c ++ r.flatMap ('/' :: ·), by simp⟩, fun q hq => ?_⟩
  rw [List.drop_left, ← hq.foldl_childPath _ hcr, components_foldl _ hcr]

theorem Canon.child_ne_root (h : Canon root p) {n : Name} (hn : ValidName n) :
    pathComponents (childPath p n) ≠ pathComponents root := by
  obtain ⟨ns, hns, rfl⟩ := h
  intro e
  have := components_childPath (ns.foldl childPath root) hn
  rw [components_eq_of_pathComponents e, components_foldl ns hns] at this
  simp at this

end

theorem head?_normalizeRoot (root : List Char) : (normalizeRoot root).head? = some '/' := by
  obtain ⟨w, hw, hn⟩ : ∃ w : List Char, w.head? = some '/' ∧ normalizeRoot root =
      if w.rdropWhile (· = '/') = [] then ['/'] else w.rdropWhile (· = '/') := by
    refine ⟨_, ?_, rfl⟩
    generalize (if (root.dropWhile isWhiteSpace).rdropWhile isWhiteSpace = [] then ['/']
      else (root.dropWhile isWhiteSpace).rdropWhile isWhiteSpace) = r
    split
    · next h => exact h
    · rfl
  rw [hn]
  split
  · rfl
  · next hne =>
    obtain ⟨rest, hrest⟩ : w.rdropWhile (· = '/') <+: w := List.rdropWhile_prefix ..
    rw [← hrest, List.head?_append_of_ne_nil _ hne] at hw
    exact hw

theorem normalizeRoot_eq (root : List Char) :
    normalizeRoot root = ['/'] ∨ (normalizeRoot root).getLast? ≠ some '/' := by
  obtain ⟨w, hw⟩ : ∃ w : List Char, normalizeRoot root =
      if w.rdropWhile (· = '/') = [] then ['/'] else w.rdropWhile (· = '/') := ⟨_, rfl⟩
  rw [hw]
  split
  · exact .inl rfl
  · next hne =>
    refine .inr fun h => ?_
    have := List.rdropWhile_last_not (· = '/') w hne
    rw [List.getLast?_eq_some_getLast hne] at h
    exact this (by simpa using Option.some.inj h)

section
variable {root : List Char} {p : Path}

theorem Canon.head? (h : Canon (normalizeRoot root) p) : p.head? = some '/' := by
  obtain ⟨ns, -, rfl⟩ := h
  induction ns using List.reverseRecOn with
  | nil => exact head?_normalizeRoot root
  | append_singleton ns n ih =>
    rw [List.foldl_append]
    exact head?_childPath ih n

theorem Canon.getLast? (h : Canon (normalizeRoot root) p) (hp : p ≠ ['/']) :
    p.getLast? ≠ some '/' := by
  obtain ⟨ns, hns, rfl⟩ := h
  rcases List.eq_nil_or_concat' ns with rfl | ⟨ns, n, rfl⟩
  · exact (normalizeRoot_eq root).resolve_left hp
  · rw [List.foldl_append]
    exact getLast?_childPath _ (hns n (by simp))

/-- What `readdir` makes of a path and a name is the child's path, unless the path is another
spelling of `/`. -/
theorem Canon.entryPath_eq (h : Canon (normalizeRoot root) p) (hp : components p = [] → p = ['/'])
    (n : Name) : entryPath p n = childPath p n := by
  by_cases hc : components p = []
  · rw [hp hc]
    rfl
  · have hlast := h.getLast? fun e => hc (by rw [e]; rfl)
    have hnamed : Named p := ⟨hc, hlast⟩
    have hself : p.rdropWhile (· = '/') = p := by
      rw [List.rdropWhile_eq_self_iff]
      intro hne hl
      exact hlast (by rw [List.getLast?_eq_some_getLast hne, of_decide_eq_true hl])
    rw [hnamed.childPath_eq, entryPath, hself]

end

end QuicFs.Client
