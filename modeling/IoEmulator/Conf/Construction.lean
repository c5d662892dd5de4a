import IoEmulator.Conf.ReloadRuns

/-!
# Three ways of constructing a parser on a file

The inherited constructors run the `reload` of the base class and never fill the
tables. The environment constructor runs the override. They agree only on files
that hold no document and on documents without entries.
-/

namespace IoEmulator.Conf

open Foundation.FirstWinsMap

open Tracked (sampleParse sampleFs)

variable (parse : XmlParse) (fs : FileSystem)

/-- The parsers a program can hold: constructed in one of the three ways and then
reloaded any number of times, returning or throwing. -/
inductive Reachable : IoParser → Prop where
  | ofPath {fs : FileSystem} {q : Text} {p : IoParser} :
      IoParser.ofPath parse fs q = .ok p → Reachable p
  | ofMovedPath {fs : FileSystem} {q : Text} {p : IoParser} :
      IoParser.ofMovedPath parse fs q = .ok p → Reachable p
  | ofEnv {fs : FileSystem} {value : Option Text} {eqProj : Text} {p : IoParser} :
      IoParser.ofEnv parse fs value eqProj = .ok p → Reachable p
  | reload {fs : FileSystem} {q : Text} {p : IoParser} :
      Reachable p → Reachable (p.reload parse fs q).1

theorem wellFormed_reload {p : IoParser} (h : p.toTables.WellFormed) (q : Text) :
    (p.reload parse fs q).1.toTables.WellFormed := by
  rcases p.reload_tables parse fs q with
    ⟨-, p', e, hrun, -, ht⟩ | ⟨_, e, p', -, -, hrun, -, ht⟩ | ⟨_, p', -, hrun, -, ht⟩
  · rw [hrun]
    exact ht ▸ h
  · rw [hrun]
    exact ht ▸ h
  · rw [hrun]
    exact ht.wellFormed

/-- Either all three constructions throw, or all succeed with the same path and
the same tables. -/
def ConstructorsAgree (p eqProj : Text) : Prop :=
  (∃ e₁ e₂ e₃, IoParser.ofPath parse fs p = .error e₁ ∧
    IoParser.ofMovedPath parse fs p = .error e₂ ∧
    IoParser.ofEnv parse fs (some p) eqProj = .error e₃) ∨
  ∃ a b c, IoParser.ofPath parse fs p = .ok a ∧ IoParser.ofMovedPath parse fs p = .ok b ∧
    IoParser.ofEnv parse fs (some p) eqProj = .ok c ∧
    (a.filepath = b.filepath ∧ b.filepath = c.filepath) ∧
    a.toTables = b.toTables ∧ b.toTables = c.toTables

/-- A configuration without a single entry. -/
def EmptyDocument (doc : List XmlNode) : Prop :=
  ∃ drvs items, Sections doc drvs items ∧ entries drvAttrK drvs = [] ∧ entries itemAttrK items = []

theorem tabulate_eq_empty_iff (ds : List Driver) (is : List Item) :
    tabulate ds is = {} ↔ ds = [] ∧ is = [] := by
  constructor
  · intro h
    have hd : indexBy Driver.key ds ∅ = ∅ := congrArg Tables.drivers h
    have hi : indexBy Item.name is ∅ = ∅ := congrArg Tables.items h
    exact ⟨(indexBy_empty_eq_empty_iff _ _).mp hd, (indexBy_empty_eq_empty_iff _ _).mp hi⟩
  · rintro ⟨rfl, rfl⟩
    rfl

/-- Exactly the documents without entries have empty tables. -/
theorem tablesOf_empty_iff (doc : List XmlNode) : TablesOf doc {} ↔ EmptyDocument doc := by
  constructor
  · rintro ⟨drvs, items, ds, is, hsec, hds, his, ht⟩
    obtain ⟨rfl, rfl⟩ := (tabulate_eq_empty_iff ds is).mp ht.symm
    rw [mapM_eq_ok_iff, List.forall₂_nil_right_iff] at hds his
    exact ⟨drvs, items, hsec, hds, his⟩
  · rintro ⟨drvs, items, hsec, hd, hi⟩
    exact ⟨drvs, items, [], [], hsec, by rw [hd]; rfl, by rw [hi]; rfl, rfl⟩

/-- The inherited constructors succeed on every file with a document, with the
path given and empty tables. -/
theorem ofPath_cases (p : Text) :
    (readDocument parse fs p = none ∧ (∃ e, IoParser.ofPath parse fs p = .error e) ∧
      ∃ e, IoParser.ofMovedPath parse fs p = .error e) ∨
    (∃ nodes a b, readDocument parse fs p = some nodes ∧ IoParser.ofPath parse fs p = .ok a ∧
      IoParser.ofMovedPath parse fs p = .ok b ∧ a.filepath = p ∧ b.filepath = p ∧
      a.toTables = {} ∧ b.toTables = {}) := by
  have h₁ := BasicParser.reload_cases parse fs p {}
  have h₂ := BasicParser.reload_cases parse fs [] { filepath := p }
  simp only [target_unset, target_current] at h₁ h₂
  rcases h₁ with ⟨hnone, b₁, e₁, hrun₁, -⟩ | ⟨nodes, b₁, -, hdoc, hrun₁, hpath₁, -⟩ <;>
    rcases h₂ with ⟨hnone₂, b₂, e₂, hrun₂, -⟩ | ⟨nodes₂, b₂, -, hdoc₂, hrun₂, hpath₂, -⟩
  · exact Or.inl ⟨hnone, ⟨e₁, by simp [IoParser.ofPath, BasicParser.ofPath, hrun₁, Except.map]⟩,
      e₂, by simp [IoParser.ofMovedPath, BasicParser.ofMovedPath, hrun₂, Except.map]⟩
  · simp [hnone] at hdoc₂
  · simp [hdoc] at hnone₂
  · refine Or.inr ⟨nodes, { toBasicParser := b₁ }, { toBasicParser := b₂ }, hdoc, ?_, ?_, hpath₁,
      hpath₂, rfl, rfl⟩
    · simp [IoParser.ofPath, BasicParser.ofPath, hrun₁, Except.map]
    · simp [IoParser.ofMovedPath, BasicParser.ofMovedPath, hrun₂, Except.map]

/-- In every parser a program can hold the key set belongs to the item table, and
items and drivers are stored under their own keys. -/
theorem Reachable.wellFormed {p : IoParser} (h : Reachable parse p) : p.toTables.WellFormed := by
  induction h with
  | @ofPath fs q p h =>
      rcases ofPath_cases parse fs q with ⟨-, ⟨e, he⟩, -⟩ | ⟨-, a, -, -, ha, -, -, -, ht, -⟩
      · simp [he] at h
      · obtain rfl := Except.ok.inj (ha.symm.trans h)
        exact ht ▸ wellFormed_empty
  | @ofMovedPath fs q p h =>
      rcases ofPath_cases parse fs q with ⟨-, -, e, he⟩ | ⟨-, -, b, -, -, hb, -, -, -, ht⟩
      · simp [he] at h
      · obtain rfl := Except.ok.inj (hb.symm.trans h)
        exact ht ▸ wellFormed_empty
  | @ofEnv fs value eqProj p h =>
      cases henv : IoParser.envPath value eqProj with
      | none =>
          obtain rfl : {} = p := by simpa [IoParser.ofEnv, henv] using h
          exact wellFormed_empty
      | some path =>
          rcases IoParser.ofEnv_tables parse fs henv with
            ⟨-, e, he⟩ | ⟨-, -, -, e, he⟩ | ⟨_, p', -, hp', -, ht⟩
          · simp [he] at h
          · simp [he] at h
          · obtain rfl := Except.ok.inj (hp'.symm.trans h)
            exact ht.wellFormed
  | reload _ ih => exact wellFormed_reload parse _ ih _

/-- The constructors agree exactly on files without a document and on empty
configurations. -/
theorem constructorsAgree_iff (p eqProj : Text) :
    ConstructorsAgree parse fs p eqProj ↔
      readDocument parse fs p = none ∨
        ∃ nodes, readDocument parse fs p = some nodes ∧ EmptyDocument nodes := by
  have hpath : IoParser.envPath (some p) eqProj = some p := rfl
  have henv := IoParser.ofEnv_tables parse fs hpath
  rcases ofPath_cases parse fs p with
    ⟨hnone, ⟨e₁, h₁⟩, e₂, h₂⟩ | ⟨nodes, a, b, hdoc, ha, hb, hpa, hpb, hta, htb⟩
  · refine iff_of_true ?_ (Or.inl hnone)
    rcases henv with ⟨-, e₃, h₃⟩ | ⟨nodes, hdoc, -⟩ | ⟨nodes, c, hdoc, -⟩
    · exact Or.inl ⟨e₁, e₂, e₃, h₁, h₂, h₃⟩
    · simp [hnone] at hdoc
    · simp [hnone] at hdoc
  · simp only [hdoc, reduceCtorEq, false_or, Option.some.injEq, exists_eq_left',
      ← tablesOf_empty_iff]
    rcases henv with ⟨hnone, -⟩ | ⟨nodes', hdoc', hx, e, hc⟩ | ⟨nodes', c, hdoc', hc, hpc, ht⟩
    · simp [hdoc] at hnone
    · obtain rfl := Option.some.inj (hdoc'.symm.trans hdoc)
      refine iff_of_false ?_ fun ht => hx ⟨_, ht⟩
      rintro (⟨_, _, _, ha', -⟩ | ⟨_, _, _, -, -, hc', -⟩)
      · simp [ha] at ha'
      · simp [hc] at hc'
    · obtain rfl := Option.some.inj (hdoc'.symm.trans hdoc)
      constructor
      · rintro (⟨_, _, _, ha', -⟩ | ⟨a', b', c', ha', hb', hc', -, -, htab⟩)
        · simp [ha] at ha'
        · obtain rfl := Except.ok.inj (hb.symm.trans hb')
          obtain rfl := Except.ok.inj (hc.symm.trans hc')
          exact htb ▸ htab ▸ ht
      · intro hempty
        have hc0 : c.toTables = {} := ht.unique hempty
        exact Or.inr ⟨a, b, c, ha, hb, hc, ⟨hpa.trans hpb.symm, hpb.trans hpc.symm⟩,
          hta.trans htb.symm, htb.trans hc0.symm⟩

/-- On a file with one item the path constructor succeeds without the item that
the environment constructor stores. -/
theorem constructors_disagree : ¬ ConstructorsAgree sampleParse sampleFs (lit "conf.xml") [] := by
  have hpath : (IoParser.ofPath sampleParse sampleFs (lit "conf.xml")).map
      (fun p => (p.findItem (lit "a")).isSome) = .ok false := by decide +kernel
  have henv : (IoParser.ofEnv sampleParse sampleFs (some (lit "conf.xml")) []).map
      (fun p => (p.findItem (lit "a")).isSome) = .ok true := by decide +kernel
  rintro (⟨e₁, _, _, ha, -⟩ | ⟨a, b, c, ha, -, hc, -, hab, hbc⟩)
  · simp [ha, Except.map] at hpath
  · simp only [ha, hc, Except.map, Except.ok.injEq, IoParser.findItem] at hpath henv
    rw [hab, hbc, henv] at hpath
    simp at hpath

end IoEmulator.Conf
