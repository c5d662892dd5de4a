import IoEmulator.Conf.IoParser

/-!
# What the loader extracts

A document's tables, described without the loops: the entries of its two
sections, read in document order and indexed with the first entry of each key
kept. The loader returns normally exactly on documents that have tables.
-/

namespace IoEmulator.Conf

open Foundation.FirstWinsMap Foundation.KeySets

/-- The direct children of a section with its entry tag, in document order. -/
def entries (tag : Text) (parent : XmlNode) : List XmlNode :=
  parent.children.filter fun n => n.name = tag

/-- The first document element `IODEF`, its first `DRIVERS` child and the first
`ITEMS` behind that. -/
def Sections (doc : List XmlNode) (drvs items : XmlNode) : Prop :=
  ∃ root d i, firstNode rootNodeK doc = some root ∧
    firstNode drvsNodeK root.node.children = some d ∧ nextSibling itemsNodeK d = some i ∧
    d.node = drvs ∧ i.node = items

/-- Index drivers and items, the first one of each key winning. -/
def tabulate (ds : List Driver) (is : List Item) : Tables where
  drivers := indexBy Driver.key ds ∅
  items := indexBy Item.name is ∅
  itemKeys := KeySet.insertAll (is.map Item.name) ∅

/-- `t` holds the tables of the document. -/
def TablesOf (doc : List XmlNode) (t : Tables) : Prop :=
  ∃ drvs items ds is, Sections doc drvs items ∧
    (entries drvAttrK drvs).mapM Driver.ofNode = .ok ds ∧
    (entries itemAttrK items).mapM Item.ofNode = .ok is ∧ t = tabulate ds is

/-- The drivers loop reads every driver entry of its section. -/
theorem loadDrivers_eq (drvs : XmlNode) :
    loadDrivers (siblingsFrom drvAttrK drvs) =
      ((entries drvAttrK drvs).mapM Driver.ofNode).map fun ds => indexBy Driver.key ds ∅ := by
  have h := foldlM_read (fun n : XmlNode => decide (n.name = drvAttrK)) Driver.ofNode
    (fun drivers drv => emplace drv.key drv drivers) (siblingsFrom drvAttrK drvs) ∅
  simp only [decide_eq_true_eq, filter_siblingsFrom] at h
  exact h

/-- The items loop reads every item entry of its section. -/
theorem loadItems_eq (items : XmlNode) :
    loadItems (siblingsFrom itemAttrK items) =
      ((entries itemAttrK items).mapM Item.ofNode).map fun is =>
        (KeySet.insertAll (is.map Item.name) ∅, indexBy Item.name is ∅) := by
  have h := foldlM_read (fun n : XmlNode => decide (n.name = itemAttrK)) Item.ofNode
    (fun s i => (insert i.name s.1, emplace i.name i s.2))
    (siblingsFrom itemAttrK items) ((∅ : KeySet Text), (∅ : KeyMap Text Item))
  simp only [decide_eq_true_eq, filter_siblingsFrom, foldl_keys_emplace] at h
  exact h

theorem extract_of_sections {doc : List XmlNode} {drvs items : XmlNode}
    (h : Sections doc drvs items) :
    extract doc =
      ((entries drvAttrK drvs).mapM Driver.ofNode).bind fun ds =>
        ((entries itemAttrK items).mapM Item.ofNode).map fun is => tabulate ds is := by
  obtain ⟨root, d, i, hroot, hdrvs, hitems, rfl, rfl⟩ := h
  simp only [extract, hroot, hdrvs, hitems, loadDrivers_eq, loadItems_eq]
  cases (entries drvAttrK d.node).mapM Driver.ofNode with
  | error e => rfl
  | ok ds =>
      cases (entries itemAttrK i.node).mapM Item.ofNode with
      | error e => rfl
      | ok is => rfl

/-- The loader returns normally exactly with the tables of its document. -/
theorem extract_eq_ok_iff (doc : List XmlNode) (t : Tables) :
    extract doc = .ok t ↔ TablesOf doc t := by
  constructor
  · intro h
    have hsec : ∃ drvs items, Sections doc drvs items := by
      unfold extract at h
      split at h
      · simp at h
      · rename_i root hroot
        split at h
        · simp at h
        · rename_i d hd
          split at h
          · simp at h
          · rename_i i hi
            exact ⟨d.node, i.node, root, d, i, hroot, hd, hi, rfl, rfl⟩
    obtain ⟨drvs, items, hsec⟩ := hsec
    rw [extract_of_sections hsec] at h
    cases hds : (entries drvAttrK drvs).mapM Driver.ofNode with
    | error e => simp [hds, Except.bind] at h
    | ok ds =>
        cases his : (entries itemAttrK items).mapM Item.ofNode with
        | error e => simp [hds, his, Except.bind, Except.map] at h
        | ok is =>
            refine ⟨drvs, items, ds, is, hsec, hds, his, ?_⟩
            simpa [hds, his, Except.bind, Except.map, eq_comm] using h
  · rintro ⟨drvs, items, ds, is, hsec, hds, his, rfl⟩
    rw [extract_of_sections hsec, hds, his]
    rfl

/-- A document has at most one set of tables. -/
theorem TablesOf.unique {doc : List XmlNode} {t t' : Tables} (h : TablesOf doc t)
    (h' : TablesOf doc t') : t = t' :=
  Except.ok.inj (((extract_eq_ok_iff doc t).mpr h).symm.trans ((extract_eq_ok_iff doc t').mpr h'))

theorem Sections.unique {doc : List XmlNode} {drvs items drvs' items' : XmlNode}
    (h : Sections doc drvs items) (h' : Sections doc drvs' items') :
    drvs = drvs' ∧ items = items' := by
  obtain ⟨root, d, i, hroot, hd, hi, rfl, rfl⟩ := h
  obtain ⟨root', d', i', hroot', hd', hi', rfl, rfl⟩ := h'
  obtain rfl := Option.some.inj (hroot.symm.trans hroot')
  obtain rfl := Option.some.inj (hd.symm.trans hd')
  obtain rfl := Option.some.inj (hi.symm.trans hi')
  exact ⟨rfl, rfl⟩

/-- An item is named by its `name` attribute. -/
theorem Item.ofNode_name {node : XmlNode} {i : Item} (h : Item.ofNode node = .ok i) :
    i.name = nodeGetAttr node (lit "name") := by
  unfold Item.ofNode at h
  split at h
  · simp at h
  · obtain rfl := Except.ok.inj h
    rfl

theorem items_names {l : List XmlNode} {is : List Item} (h : l.mapM Item.ofNode = .ok is) :
    is.map Item.name = l.map fun node => nodeGetAttr node (lit "name") := by
  rw [mapM_eq_ok_iff] at h
  induction h with
  | nil => rfl
  | cons hi _ ih => rw [List.map_cons, List.map_cons, Item.ofNode_name hi, ih]

/-- The stored item names are those of the item entries of the document. -/
theorem TablesOf.mem_itemKeys {doc : List XmlNode} {t : Tables} (h : TablesOf doc t) (c : Text) :
    c ∈ t.itemKeys ↔ ∃ drvs items, Sections doc drvs items ∧
      ∃ node ∈ entries itemAttrK items, nodeGetAttr node (lit "name") = c := by
  obtain ⟨drvs, items, ds, is, hsec, -, his, rfl⟩ := h
  simp only [tabulate, items_names his, KeySet.mem_insertAll, KeySet.notMem_empty, false_or,
    List.mem_map]
  constructor
  · rintro ⟨node, hnode, hname⟩
    exact ⟨drvs, items, hsec, node, hnode, hname⟩
  · rintro ⟨drvs', items', hsec', node, hnode, hname⟩
    exact ⟨node, (hsec'.unique hsec).2 ▸ hnode, hname⟩

/-- Everything a `reload` can do, in terms of the document of its target: keep
path and tables without one, keep the tables only when it has none, or take over
its tables. -/
theorem IoParser.reload_tables (parse : XmlParse) (fs : FileSystem) (q : Text) (p : IoParser) :
    (readDocument parse fs (target p.filepath q) = none ∧
      ∃ p' e, p.reload parse fs q = (p', .error e) ∧ p'.filepath = p.filepath ∧
        p'.toTables = p.toTables) ∨
    (∃ nodes e p', readDocument parse fs (target p.filepath q) = some nodes ∧
      (¬ ∃ t, TablesOf nodes t) ∧ p.reload parse fs q = (p', .error e) ∧
      p'.filepath = target p.filepath q ∧ p'.toTables = p.toTables) ∨
    (∃ nodes p', readDocument parse fs (target p.filepath q) = some nodes ∧
      p.reload parse fs q = (p', .ok ()) ∧ p'.filepath = target p.filepath q ∧
      TablesOf nodes p'.toTables) := by
  rcases p.reload_cases parse fs q with
    h | ⟨nodes, e, p', hdoc, hx, hrun, hpath, htab⟩ | ⟨nodes, t, p', hdoc, hx, hrun, hpath, rfl⟩
  · exact Or.inl h
  · refine Or.inr (Or.inl ⟨nodes, e, p', hdoc, ?_, hrun, hpath, htab⟩)
    rintro ⟨t, ht⟩
    rw [(extract_eq_ok_iff nodes t).mpr ht] at hx
    simp at hx
  · exact Or.inr (Or.inr ⟨nodes, p', hdoc, hrun, hpath, (extract_eq_ok_iff _ _).mp hx⟩)

/-- A call that returns has found a document and leaves the tables of it. -/
theorem IoParser.exists_document_of_reload {parse : XmlParse} {fs : FileSystem} {q : Text}
    {p : IoParser} (hok : (p.reload parse fs q).2 = .ok ()) :
    ∃ doc, readDocument parse fs (target p.filepath q) = some doc ∧
      TablesOf doc (p.reload parse fs q).1.toTables := by
  rcases p.reload_tables parse fs q with
    ⟨-, p', e, hrun, -⟩ | ⟨-, e, p', -, -, hrun, -⟩ | ⟨doc, p', hdoc, hrun, -, ht⟩
  · simp [hrun] at hok
  · simp [hrun] at hok
  · refine ⟨doc, hdoc, ?_⟩
    rw [hrun]
    exact ht

/-- A call that finds a document and returns leaves the tables of that document. -/
theorem IoParser.tablesOf_reload {parse : XmlParse} {fs : FileSystem} {q : Text} {p : IoParser}
    {doc : List XmlNode} (hdoc : readDocument parse fs (target p.filepath q) = some doc)
    (hok : (p.reload parse fs q).2 = .ok ()) : TablesOf doc (p.reload parse fs q).1.toTables := by
  obtain ⟨doc', hdoc', ht⟩ := IoParser.exists_document_of_reload hok
  obtain rfl := Option.some.inj (hdoc'.symm.trans hdoc)
  exact ht

/-- A call that finds a document returns exactly when the document has tables. -/
theorem IoParser.reload_ok_iff {parse : XmlParse} {fs : FileSystem} {q : Text} {p : IoParser}
    {doc : List XmlNode} (hdoc : readDocument parse fs (target p.filepath q) = some doc) :
    (p.reload parse fs q).2 = .ok () ↔ ∃ t, TablesOf doc t := by
  rw [IoParser.reload_outcome hdoc]
  constructor
  · intro h
    obtain ⟨t, hx, -⟩ := map_eq_ok_iff.mp h
    exact ⟨t, (extract_eq_ok_iff doc t).mp hx⟩
  · rintro ⟨t, ht⟩
    rw [(extract_eq_ok_iff doc t).mpr ht]
    rfl

/-- Everything the environment constructor can do on a path. -/
theorem IoParser.ofEnv_tables (parse : XmlParse) (fs : FileSystem) {value : Option Text}
    {eqProj path : Text} (h : IoParser.envPath value eqProj = some path) :
    (readDocument parse fs path = none ∧ ∃ e, ofEnv parse fs value eqProj = .error e) ∨
    (∃ nodes, readDocument parse fs path = some nodes ∧ (¬ ∃ t, TablesOf nodes t) ∧
      ∃ e, ofEnv parse fs value eqProj = .error e) ∨
    (∃ nodes p, readDocument parse fs path = some nodes ∧ ofEnv parse fs value eqProj = .ok p ∧
      p.filepath = path ∧ TablesOf nodes p.toTables) := by
  have hr := IoParser.reload_tables parse fs path {}
  simp only [target_unset] at hr
  rcases hr with ⟨hdoc, p', e, hrun, -⟩ | ⟨nodes, e, p', hdoc, hx, hrun, -⟩ |
    ⟨nodes, p', hdoc, hrun, hpath, ht⟩
  · exact Or.inl ⟨hdoc, e, by simp [ofEnv, h, hrun, Except.map]⟩
  · exact Or.inr (Or.inl ⟨nodes, hdoc, hx, e, by simp [ofEnv, h, hrun, Except.map]⟩)
  · exact Or.inr (Or.inr ⟨nodes, p', hdoc, by simp [ofEnv, h, hrun, Except.map], hpath, ht⟩)

/-- The key set is that of the item table, and both maps index their values by
the values' own keys. -/
structure Tables.WellFormed (t : Tables) : Prop where
  itemKeys : t.itemKeys = keySet t.items
  items : SelfKeyed Item.name t.items
  drivers : SelfKeyed Driver.key t.drivers

theorem wellFormed_tabulate (ds : List Driver) (is : List Item) :
    (tabulate ds is).WellFormed where
  itemKeys := (keySet_indexBy Item.name is ∅).symm
  items := (selfKeyed_empty _).indexBy is
  drivers := (selfKeyed_empty _).indexBy ds

theorem wellFormed_empty : ({} : Tables).WellFormed := wellFormed_tabulate [] []

theorem TablesOf.wellFormed {doc : List XmlNode} {t : Tables} (h : TablesOf doc t) :
    t.WellFormed := by
  obtain ⟨-, -, ds, is, -, -, -, rfl⟩ := h
  exact wellFormed_tabulate ds is

/-- A call that returns leaves well-formed tables, whatever was there before. -/
theorem IoParser.wellFormed_of_reload {parse : XmlParse} {fs : FileSystem} {q : Text}
    {p : IoParser} (hok : (p.reload parse fs q).2 = .ok ()) :
    (p.reload parse fs q).1.toTables.WellFormed := by
  obtain ⟨doc, -, ht⟩ := IoParser.exists_document_of_reload hok
  exact ht.wellFormed

/-- The unsigned image of an id determines the id. -/
theorem Driver.key_inj {d d' : Driver} : d.key = d'.key ↔ d.id = d'.id := by
  constructor
  · intro h
    have := congrArg UInt32.toInt32 h
    simpa [Driver.key] using this
  · intro h
    rw [Driver.key, Driver.key, h]

end IoEmulator.Conf
