import IoEmulator.Conf.Extraction

/-!
# The format the loader accepts

The accepted documents are described by splitting sibling lists, without the
navigation calls of the loader. A call returns normally exactly on them, and its
tables then answer every lookup by the first direct entry that carries the key.
-/

namespace IoEmulator.Conf

open Foundation.FirstWinsMap

/-- `root` is the first top-level `IODEF`. -/
def FirstRoot (doc : List XmlNode) (root : XmlNode) : Prop :=
  ∃ before after, doc = before ++ root :: after ∧ root.name = rootNodeK ∧
    ∀ n ∈ before, n.name ≠ rootNodeK

/-- The first top-level `IODEF` has `drvs` for its first `DRIVERS` child, and
`items` is the first `ITEMS` behind that. -/
def Layout (doc : List XmlNode) (drvs items : XmlNode) : Prop :=
  ∃ root, FirstRoot doc root ∧
    ∃ first between last, root.children = first ++ drvs :: (between ++ items :: last) ∧
      drvs.name = drvsNodeK ∧ (∀ n ∈ first, n.name ≠ drvsNodeK) ∧
      items.name = itemsNodeK ∧ ∀ n ∈ between, n.name ≠ itemsNodeK

/-- The navigation of the loader finds exactly the sections of the layout. -/
theorem sections_iff_layout (doc : List XmlNode) (drvs items : XmlNode) :
    Sections doc drvs items ↔ Layout doc drvs items := by
  simp only [Sections, nextSibling, firstNode_eq_some_iff]
  constructor
  · rintro ⟨root, d, i, ⟨before, hdoc, hroot, hbefore⟩, ⟨first, hd, hdname, hfirst⟩,
      ⟨between, hi, hiname, hbetween⟩, rfl, rfl⟩
    exact ⟨root.node, ⟨before, root.later, hdoc, hroot, hbefore⟩, first, between, i.later,
      hi ▸ hd, hdname, hfirst, hiname, hbetween⟩
  · rintro ⟨root, ⟨before, after, hdoc, hroot, hbefore⟩, first, between, last, hchildren, hdname,
      hfirst, hiname, hbetween⟩
    exact ⟨⟨root, after⟩, ⟨drvs, between ++ items :: last⟩, ⟨items, last⟩,
      ⟨before, hdoc, hroot, hbefore⟩, ⟨first, hchildren, hdname, hfirst⟩,
      ⟨between, rfl, hiname, hbetween⟩, rfl, rfl⟩

/-- The value of the first attribute of that name, and empty when there is none. -/
def attrValue (node : XmlNode) (name : Text) : Text :=
  ((node.attributes.find? fun a => a.1 = name).map Prod.snd).getD []

/-- `std::stoi` converts the text to a 32-bit integer. -/
def Convertible (n : Text) : Prop := ∃ i, stoi n = .ok i

/-- The numeric attributes of a `DRV` entry convert: `id` must, and `node` must
unless it is empty or absent. -/
def DriverReadable (node : XmlNode) : Prop :=
  Convertible (attrValue node (lit "id")) ∧
    (attrValue node (lit "node") = [] ∨ Convertible (attrValue node (lit "node")))

/-- The driver reference of an `ITEM` entry converts, is empty or is absent. -/
def ItemReadable (node : XmlNode) : Prop :=
  attrValue node (lit "drv") = [] ∨ Convertible (attrValue node (lit "drv"))

/-- All numeric attributes in the direct entries of both sections convert. -/
def EntriesReadable (drvs items : XmlNode) : Prop :=
  (∀ node ∈ entries drvAttrK drvs, DriverReadable node) ∧
    ∀ node ∈ entries itemAttrK items, ItemReadable node

/-- The documents of the configuration format. -/
def Accepted (doc : List XmlNode) : Prop :=
  ∃ drvs items, Layout doc drvs items ∧ EntriesReadable drvs items

/-- The table key that a `DRV` entry shows in its `id`. -/
def driverKey (node : XmlNode) : Option UInt32 :=
  (stoi (attrValue node (lit "id"))).toOption.map Int32.toUInt32

/-- The number that an optional attribute stands for: -1 when it is empty. -/
def OptionalNumber (n : Text) (i : Int32) : Prop :=
  (n = [] ∧ i = -1) ∨ (n ≠ [] ∧ stoi n = .ok i)

/-- The driver that a `DRV` entry describes, field by field. -/
structure DriverRecord (entry : XmlNode) (d : Driver) : Prop where
  id : stoi (attrValue entry (lit "id")) = .ok d.id
  node : OptionalNumber (attrValue entry (lit "node")) d.node
  name : d.name = attrValue entry (lit "name")
  file : d.file = attrValue entry (lit "file")
  enable : d.enable = true ↔ attrValue entry (lit "enable") = lit "True"

/-- The item that an `ITEM` entry describes, field by field. A type that is none of
the three is unknown. -/
structure ItemRecord (entry : XmlNode) (i : Item) : Prop where
  category : i.category = .io ↔ attrValue entry (lit "cat") = lit "IO"
  intVal : i.dt = .intVal ↔ attrValue entry (lit "dt") = lit "Integer"
  doubleVal : i.dt = .doubleVal ↔ attrValue entry (lit "dt") = lit "Double"
  stringVal : i.dt = .stringVal ↔ attrValue entry (lit "dt") = lit "String"
  driverId : OptionalNumber (attrValue entry (lit "drv")) i.driverId
  name : i.name = attrValue entry (lit "name")
  pr : i.pr = attrValue entry (lit "pr")
  pw : i.pw = attrValue entry (lit "pw")

section Entries

theorem nodeGetAttr_eq (node : XmlNode) (name : Text) :
    nodeGetAttr node name = attrValue node name := rfl

theorem optionalId_eq_ok_iff (n : Text) (i : Int32) :
    optionalId n = .ok i ↔ OptionalNumber n i := by
  by_cases hn : n = []
  · simp [optionalId, OptionalNumber, hn, eq_comm]
  · simp [optionalId, OptionalNumber, hn]

/-- The constructor makes exactly the driver that its entry describes. -/
theorem Driver.ofNode_eq_ok_iff (entry : XmlNode) (d : Driver) :
    Driver.ofNode entry = .ok d ↔ DriverRecord entry d := by
  constructor
  · intro h
    unfold Driver.ofNode at h
    split at h
    · cases h
    · rename_i id hid
      split at h
      · cases h
      · rename_i n hn
        obtain rfl := Except.ok.inj h
        exact ⟨hid, (optionalId_eq_ok_iff _ _).mp hn, rfl, rfl, decide_eq_true_iff⟩
  · intro h
    obtain ⟨id, n, name, file, enable⟩ := d
    obtain ⟨hid, hnode, rfl, rfl, henable⟩ := h
    have hn : Driver.parseNodeAttr entry = .ok n := (optionalId_eq_ok_iff _ _).mpr hnode
    have hen : enable = decide (nodeGetAttr entry (lit "enable") = lit "True") :=
      Bool.eq_iff_iff.mpr (henable.trans decide_eq_true_iff.symm)
    have hi : stoi (attrValue entry (lit "id")) = .ok id := hid
    simp only [Driver.ofNode, nodeGetAttr_eq, hi, hn, hen]

theorem Item.parseCategory_eq_io_iff (entry : XmlNode) :
    Item.parseCategory entry = .io ↔ attrValue entry (lit "cat") = lit "IO" := by
  unfold Item.parseCategory
  split <;> simp_all [nodeGetAttr_eq]

theorem Item.parseDataType_iff (entry : XmlNode) :
    (Item.parseDataType entry = .intVal ↔ attrValue entry (lit "dt") = lit "Integer") ∧
      (Item.parseDataType entry = .doubleVal ↔ attrValue entry (lit "dt") = lit "Double") ∧
      (Item.parseDataType entry = .stringVal ↔ attrValue entry (lit "dt") = lit "String") := by
  have hnames : lit "Integer" ≠ lit "Double" ∧ lit "Integer" ≠ lit "String" ∧
      lit "Double" ≠ lit "String" := by decide
  obtain ⟨hid, his, hds⟩ := hnames
  unfold Item.parseDataType
  by_cases hi : attrValue entry (lit "dt") = lit "Integer"
  · simp [nodeGetAttr_eq, hi, hid, his]
  · by_cases hd : attrValue entry (lit "dt") = lit "Double"
    · simp [nodeGetAttr_eq, hd, hid.symm, hds]
    · by_cases hs : attrValue entry (lit "dt") = lit "String"
      · simp [nodeGetAttr_eq, hs, his.symm, hds.symm]
      · simp [nodeGetAttr_eq, hi, hd, hs]

/-- The constructor makes exactly the item that its entry describes. -/
theorem Item.ofNode_eq_ok_iff (entry : XmlNode) (i : Item) :
    Item.ofNode entry = .ok i ↔ ItemRecord entry i := by
  obtain ⟨hint, hdouble, hstring⟩ := Item.parseDataType_iff entry
  have hcategory := Item.parseCategory_eq_io_iff entry
  constructor
  · intro h
    unfold Item.ofNode at h
    split at h
    · cases h
    · rename_i drv hdrv
      obtain rfl := Except.ok.inj h
      exact ⟨hcategory, hint, hdouble, hstring, (optionalId_eq_ok_iff _ _).mp hdrv, rfl, rfl, rfl⟩
  · intro h
    obtain ⟨category, dt, drv, name, pr, pw⟩ := i
    obtain ⟨hcategory', hint', hdouble', hstring', hdrv, rfl, rfl, rfl⟩ := h
    have hd : Item.parseDriverId entry = .ok drv := (optionalId_eq_ok_iff _ _).mpr hdrv
    have hc : category = Item.parseCategory entry := by
      have hio := hcategory'.trans hcategory.symm
      revert hio
      cases category <;> cases Item.parseCategory entry <;> simp
    have ht : dt = Item.parseDataType entry := by
      have hi := hint'.trans hint.symm
      have hd := hdouble'.trans hdouble.symm
      have hs := hstring'.trans hstring.symm
      revert hi hd hs
      cases dt <;> cases Item.parseDataType entry <;> simp
    simp only [Item.ofNode, hd, hc, ht, nodeGetAttr_eq]

theorem exists_optionalId_iff (n : Text) :
    (∃ i, optionalId n = .ok i) ↔ n = [] ∨ Convertible n := by
  by_cases hn : n = []
  · simp [optionalId, hn]
  · simp [optionalId, hn, Convertible]

theorem exists_driver_iff (node : XmlNode) :
    (∃ d, Driver.ofNode node = .ok d) ↔ DriverReadable node := by
  rw [DriverReadable, ← exists_optionalId_iff, Convertible, Driver.ofNode, Driver.parseNodeAttr]
  simp only [nodeGetAttr_eq]
  cases stoi (attrValue node (lit "id")) with
  | error e => simp
  | ok id => cases optionalId (attrValue node (lit "node")) <;> simp

theorem exists_item_iff (node : XmlNode) :
    (∃ i, Item.ofNode node = .ok i) ↔ ItemReadable node := by
  rw [ItemReadable, ← exists_optionalId_iff, Item.ofNode, Item.parseDriverId]
  simp only [nodeGetAttr_eq]
  cases optionalId (attrValue node (lit "drv")) <;> simp

/-- A driver is stored under the key its entry shows. -/
theorem DriverRecord.key {entry : XmlNode} {d : Driver} (h : DriverRecord entry d) :
    driverKey entry = some d.key := by
  rw [driverKey, h.id]
  rfl

end Entries

/-- A document has tables exactly when it is of the format. -/
theorem exists_tablesOf_iff (doc : List XmlNode) : (∃ t, TablesOf doc t) ↔ Accepted doc := by
  have hread : ∀ drvs items, EntriesReadable drvs items ↔
      (∃ ds, (entries drvAttrK drvs).mapM Driver.ofNode = .ok ds) ∧
        ∃ is, (entries itemAttrK items).mapM Item.ofNode = .ok is := by
    intro drvs items
    simp only [EntriesReadable, exists_mapM_eq_ok_iff, exists_driver_iff, exists_item_iff]
  constructor
  · rintro ⟨t, drvs, items, ds, is, hsec, hds, his, -⟩
    exact ⟨drvs, items, (sections_iff_layout _ _ _).mp hsec, (hread _ _).mpr ⟨⟨ds, hds⟩, is, his⟩⟩
  · rintro ⟨drvs, items, hlayout, hentries⟩
    obtain ⟨⟨ds, hds⟩, is, his⟩ := (hread _ _).mp hentries
    exact ⟨_, drvs, items, ds, is, (sections_iff_layout _ _ _).mpr hlayout, hds, his, rfl⟩

/-- Every lookup is answered with what the first direct entry that carries its key
describes, and the key set holds the names of the item entries. -/
structure AnswersFromEntries (p : IoParser) (drvs items : XmlNode) : Prop where
  driver : ∀ k d, p.findDriver k = some d ↔
    ∃ entry, ((entries drvAttrK drvs).find? fun n => driverKey n = some k) = some entry ∧
      DriverRecord entry d
  noDriver : ∀ k, p.findDriver k = none ↔ ∀ node ∈ entries drvAttrK drvs, driverKey node ≠ some k
  item : ∀ n i, p.findItem n = some i ↔
    ∃ entry, ((entries itemAttrK items).find? fun node => attrValue node (lit "name") = n) =
        some entry ∧ ItemRecord entry i
  noItem : ∀ n, p.findItem n = none ↔
    ∀ node ∈ entries itemAttrK items, attrValue node (lit "name") ≠ n
  itemKeys : ∀ n, n ∈ p.itemKeys ↔
    ∃ node ∈ entries itemAttrK items, attrValue node (lit "name") = n

theorem answersFromEntries_of_tablesOf {doc : List XmlNode} {drvs items : XmlNode}
    (hlayout : Layout doc drvs items) {p : IoParser} (h : TablesOf doc p.toTables) :
    AnswersFromEntries p drvs items := by
  have hkeys := h.mem_itemKeys
  obtain ⟨drvs', items', ds, is, hsec, hds, his, ht⟩ := h
  obtain ⟨rfl, rfl⟩ := hsec.unique ((sections_iff_layout _ _ _).mpr hlayout)
  have hdrivers : ∀ k, p.findDriver k = ds.find? fun d => d.key = k := fun k => by
    rw [IoParser.findDriver, congrArg Tables.drivers ht]
    exact find_indexBy_empty Driver.key ds k
  have hitems : ∀ n, p.findItem n = is.find? fun i => i.name = n := fun n => by
    rw [IoParser.findItem, congrArg Tables.items ht]
    exact find_indexBy_empty Item.name is n
  have hshownDriver : ∀ node d, Driver.ofNode node = .ok d → driverKey node = some d.key :=
    fun node d hd => ((Driver.ofNode_eq_ok_iff node d).mp hd).key
  have hshownItem : ∀ node i, Item.ofNode node = .ok i →
      some (attrValue node (lit "name")) = some i.name := fun node i hi => by
    rw [((Item.ofNode_eq_ok_iff node i).mp hi).name]
  refine ⟨fun k d => ?_, fun k => ?_, fun n i => ?_, fun n => ?_, fun n => ?_⟩
  · simp only [hdrivers, ← Driver.ofNode_eq_ok_iff]
    exact find?_of_mapM hds hshownDriver k d
  · rw [hdrivers]
    exact find?_of_mapM_none hds hshownDriver k
  · simp only [hitems, ← Item.ofNode_eq_ok_iff]
    simpa using find?_of_mapM his hshownItem n i
  · rw [hitems]
    simpa using find?_of_mapM_none his hshownItem n
  · rw [hkeys]
    constructor
    · rintro ⟨drvs', items', hsec', node, hnode, hname⟩
      exact ⟨node, (hsec'.unique hsec).2 ▸ hnode, hname⟩
    · rintro ⟨node, hnode, hname⟩
      exact ⟨_, _, hsec, node, hnode, hname⟩

section Reload

variable (parse : XmlParse)

/-- A call that finds a document returns normally exactly when the document is of
the format, and then answers every lookup from the entries of its sections. -/
theorem reload_accepts_iff {fs : FileSystem} {q : Text} {p : IoParser} {doc : List XmlNode}
    (hdoc : readDocument parse fs (target p.filepath q) = some doc) :
    ((p.reload parse fs q).2 = .ok () ↔ Accepted doc) ∧
      ((p.reload parse fs q).2 = .ok () → ∀ drvs items, Layout doc drvs items →
        AnswersFromEntries (p.reload parse fs q).1 drvs items) := by
  rw [IoParser.reload_ok_iff hdoc, exists_tablesOf_iff]
  refine ⟨Iff.rfl, fun hacc drvs items hlayout => ?_⟩
  apply answersFromEntries_of_tablesOf hlayout
  apply IoParser.tablesOf_reload hdoc
  rwa [IoParser.reload_ok_iff hdoc, exists_tablesOf_iff]

/-- A configuration that declares a driver numbered -1, and an item without a
driver reference. -/
def drivenConf : List UInt8 :=
  ("<IODEF><DRIVERS><DRV id='-1'/></DRIVERS>" ++
    "<ITEMS><ITEM name='a'/></ITEMS></IODEF>").toUTF8.data.toList

def drivenDrvs : XmlNode := ⟨drvsNodeK, [], [⟨drvAttrK, [(lit "id", lit "-1")], []⟩]⟩

def drivenItems : XmlNode := ⟨itemsNodeK, [], [⟨itemAttrK, [(lit "name", lit "a")], []⟩]⟩

def drivenNodes : List XmlNode := [⟨rootNodeK, [], [drivenDrvs, drivenItems]⟩]

def drivenParse : XmlParse := parseTable [(drivenConf, drivenNodes)]

def drivenFs : FileSystem := .ofFiles [(lit "conf.xml", drivenConf)]

theorem driven_layout : Layout drivenNodes drivenDrvs drivenItems := by
  exact ⟨_, ⟨[], [], rfl, rfl, by simp⟩, [], [], [], rfl, rfl, by simp, rfl, by simp⟩

theorem driven_document :
    readDocument drivenParse drivenFs (target ({} : IoParser).filepath (lit "conf.xml")) =
      some drivenNodes := rfl

theorem driven_reload :
    (IoParser.reload drivenParse drivenFs (lit "conf.xml") {}).2 = .ok () := by decide +kernel

/-- The sample is of the format, its one driver answers to the largest key, and the
attributes that its item lacks read as their defaults. -/
theorem reload_accepts_iff_driven : Accepted drivenNodes ∧
    (∃ d, (IoParser.reload drivenParse drivenFs (lit "conf.xml") {}).1.findDriver 4294967295 =
      some d ∧ d.id = -1) ∧
    (IoParser.reload drivenParse drivenFs (lit "conf.xml") {}).1.findItem (lit "a") =
      some ⟨.memory, .unknown, -1, lit "a", [], []⟩ := by
  obtain ⟨hiff, hanswers⟩ := reload_accepts_iff drivenParse driven_document
  have hlookups := hanswers driven_reload _ _ driven_layout
  refine ⟨hiff.mp driven_reload, ⟨⟨-1, -1, [], [], false⟩, ?_, rfl⟩, ?_⟩
  · apply (hlookups.driver _ _).mpr
    refine ⟨⟨drvAttrK, [(lit "id", lit "-1")], []⟩, rfl, ?_⟩
    exact ⟨rfl, Or.inl ⟨rfl, rfl⟩, rfl, rfl, by decide⟩
  · apply (hlookups.item _ _).mpr
    refine ⟨⟨itemAttrK, [(lit "name", lit "a")], []⟩, rfl, ?_⟩
    exact ⟨by decide, by decide, by decide, by decide, Or.inl ⟨rfl, rfl⟩, rfl, rfl, rfl⟩

end Reload

end IoEmulator.Conf
