import IoEmulator.Conf.Acceptance

/-!
# Driver references of items

An item without a driver reference carries the id -1, and the driver table is
keyed by the unsigned image of the id. The conversion confuses no two ids, but a
document may declare a driver that is numbered -1 itself.
-/

namespace IoEmulator.Conf

open Foundation.FirstWinsMap

/-- The keys separate the ids: an entry shows the key of `id` exactly when its
attribute denotes `id`. -/
theorem driverKey_eq_iff (node : XmlNode) (id : Int32) :
    driverKey node = some id.toUInt32 ↔ stoi (nodeGetAttr node (lit "id")) = .ok id := by
  have hinj : ∀ i : Int32, i.toUInt32 = id.toUInt32 ↔ i = id := by
    intro i
    constructor
    · intro h
      simpa using congrArg UInt32.toInt32 h
    · rintro rfl
      rfl
  rw [nodeGetAttr_eq, driverKey]
  cases stoi (attrValue node (lit "id")) with
  | error e => simp [Except.toOption]
  | ok i => simp [Except.toOption, hinj]

/-- The item entry that is stored under a name: the first one of that name. -/
def storedEntry (items : XmlNode) (name : Text) : Option XmlNode :=
  (entries itemAttrK items).find? fun node => nodeGetAttr node (lit "name") = name

/-- The driver entry that an id refers to: the first one with that id. -/
def declaredEntry (drvs : XmlNode) (id : Int32) : Option XmlNode :=
  (entries drvAttrK drvs).find? fun node => stoi (nodeGetAttr node (lit "id")) = .ok id

/-- Every stored item resolves to the first driver declared with the id it refers
to, and an item without a reference resolves to none. -/
def ResolvesReferences (p : IoParser) (drvs items : XmlNode) : Prop :=
  ∀ name i node, p.findItem name = some i → storedEntry items name = some node →
    if nodeGetAttr node (lit "drv") = [] then p.findDriver i.driverId.toUInt32 = none
    else ∃ id, stoi (nodeGetAttr node (lit "drv")) = .ok id ∧
      ∀ d, p.findDriver i.driverId.toUInt32 = some d ↔
        ∃ entry, declaredEntry drvs id = some entry ∧ Driver.ofNode entry = .ok d

/-- No driver is numbered -1, or every stored item has a reference. -/
def SentinelFree (drvs items : XmlNode) : Prop :=
  (∀ node ∈ entries drvAttrK drvs, stoi (nodeGetAttr node (lit "id")) ≠ .ok (-1)) ∨
    ∀ name node, storedEntry items name = some node → nodeGetAttr node (lit "drv") ≠ []

theorem Item.ofNode_driverId {node : XmlNode} {i : Item} (h : Item.ofNode node = .ok i) :
    optionalId (nodeGetAttr node (lit "drv")) = .ok i.driverId := by
  unfold Item.ofNode Item.parseDriverId at h
  split at h
  · simp at h
  · rename_i drv hdrv
    obtain rfl := Except.ok.inj h
    exact hdrv

section Answers

variable {p : IoParser} {drvs items : XmlNode}

/-- A lookup under the image of an id is answered by the entry declared with it. -/
theorem AnswersFromEntries.declared (h : AnswersFromEntries p drvs items) (id : Int32)
    (d : Driver) : p.findDriver id.toUInt32 = some d ↔
      ∃ entry, declaredEntry drvs id = some entry ∧ Driver.ofNode entry = .ok d := by
  simp only [h.driver, driverKey_eq_iff, declaredEntry, Driver.ofNode_eq_ok_iff]

theorem AnswersFromEntries.undeclared (h : AnswersFromEntries p drvs items) (id : Int32) :
    p.findDriver id.toUInt32 = none ↔
      ∀ node ∈ entries drvAttrK drvs, stoi (nodeGetAttr node (lit "id")) ≠ .ok id := by
  simp only [h.noDriver, ne_eq, driverKey_eq_iff]

/-- The stored item is the one read from the stored entry. -/
theorem AnswersFromEntries.stored (h : AnswersFromEntries p drvs items) {name : Text} {i : Item}
    {node : XmlNode} (hi : p.findItem name = some i) (hnode : storedEntry items name = some node) :
    Item.ofNode node = .ok i := by
  obtain ⟨node', hnode', hread⟩ := (h.item name i).mp hi
  obtain rfl := Option.some.inj (hnode'.symm.trans hnode)
  exact (Item.ofNode_eq_ok_iff _ _).mpr hread

theorem AnswersFromEntries.exists_stored (h : AnswersFromEntries p drvs items) {name : Text}
    {node : XmlNode} (hnode : storedEntry items name = some node) :
    ∃ i, p.findItem name = some i := by
  apply Option.ne_none_iff_exists'.mp
  rw [ne_eq, h.noItem]
  intro hno
  apply hno node (List.mem_of_find?_eq_some hnode)
  have hname : nodeGetAttr node (lit "name") = name := by simpa using List.find?_some hnode
  exact hname

end Answers

section Reload

variable (parse : XmlParse)

/-- After a reload that returns, the items resolve to their own drivers exactly
when the id of an absent reference is not declared or not needed. -/
theorem resolvesReferences_iff {fs : FileSystem} {q : Text} {p : IoParser} {doc : List XmlNode}
    {drvs items : XmlNode} (hdoc : readDocument parse fs (target p.filepath q) = some doc)
    (hok : (p.reload parse fs q).2 = .ok ()) (hlayout : Layout doc drvs items) :
    ResolvesReferences (p.reload parse fs q).1 drvs items ↔ SentinelFree drvs items := by
  have h : AnswersFromEntries (p.reload parse fs q).1 drvs items :=
    answersFromEntries_of_tablesOf hlayout (IoParser.tablesOf_reload hdoc hok)
  generalize (p.reload parse fs q).1 = p' at h
  constructor
  · intro hres
    by_contra hclash
    simp only [SentinelFree, not_or, not_forall, not_not] at hclash
    obtain ⟨⟨driver, hdriver, hid⟩, name, node, hnode, hdrv⟩ := hclash
    obtain ⟨i, hi⟩ := h.exists_stored hnode
    have hminus : i.driverId = -1 := by
      have := Item.ofNode_driverId (h.stored hi hnode)
      simpa [optionalId, hdrv, eq_comm] using this
    have hnone := hres name i node hi hnode
    rw [if_pos hdrv, hminus, h.undeclared] at hnone
    exact hnone driver hdriver hid
  · intro hfree name i node hi hnode
    have hread := Item.ofNode_driverId (h.stored hi hnode)
    by_cases hdrv : nodeGetAttr node (lit "drv") = []
    · rw [if_pos hdrv]
      have hminus : i.driverId = -1 := by simpa [optionalId, hdrv, eq_comm] using hread
      rw [hminus]
      rcases hfree with hfree | hfree
      · exact (h.undeclared _).mpr hfree
      · exact absurd hdrv (hfree name node hnode)
    · rw [if_neg hdrv]
      rw [optionalId, if_neg hdrv] at hread
      exact ⟨i.driverId, hread, h.declared i.driverId⟩

/-- A configuration with a driver, an item that refers to it and one that does not. -/
def referringConf : List UInt8 :=
  ("<IODEF><DRIVERS><DRV id='3'/></DRIVERS>" ++
    "<ITEMS><ITEM name='a' drv='3'/><ITEM name='b'/></ITEMS></IODEF>").toUTF8.data.toList

def referringDrvs : XmlNode := ⟨drvsNodeK, [], [⟨drvAttrK, [(lit "id", lit "3")], []⟩]⟩

def referringItems : XmlNode :=
  ⟨itemsNodeK, [], [⟨itemAttrK, [(lit "name", lit "a"), (lit "drv", lit "3")], []⟩,
    ⟨itemAttrK, [(lit "name", lit "b")], []⟩]⟩

def referringNodes : List XmlNode := [⟨rootNodeK, [], [referringDrvs, referringItems]⟩]

def referringParse : XmlParse := parseTable [(referringConf, referringNodes)]

def referringFs : FileSystem := .ofFiles [(lit "conf.xml", referringConf)]

/-- Both items of that configuration resolve as they should. -/
theorem resolvesReferences_referring : ResolvesReferences
    (IoParser.reload referringParse referringFs (lit "conf.xml") {}).1 referringDrvs
    referringItems := by
  have hdoc : readDocument referringParse referringFs
      (target ({} : IoParser).filepath (lit "conf.xml")) = some referringNodes := rfl
  have hok : (IoParser.reload referringParse referringFs (lit "conf.xml") {}).2 = .ok () := by
    decide +kernel
  have hlayout : Layout referringNodes referringDrvs referringItems :=
    ⟨_, ⟨[], [], rfl, rfl, by simp⟩, [], [], [], rfl, rfl, by simp, rfl, by simp⟩
  apply (resolvesReferences_iff referringParse hdoc hok hlayout).mpr
  left
  intro node hnode
  obtain rfl := List.mem_singleton.mp (List.mem_filter.mp hnode).1
  decide

/-- With a driver numbered -1, an item without a reference resolves to it. -/
theorem driven_not_resolvesReferences : ¬ ResolvesReferences
    (IoParser.reload drivenParse drivenFs (lit "conf.xml") {}).1 drivenDrvs drivenItems := by
  intro h
  have hitem : (IoParser.reload drivenParse drivenFs (lit "conf.xml") {}).1.findItem (lit "a") =
      some ⟨.memory, .unknown, -1, lit "a", [], []⟩ := by decide +kernel
  have hdriver : ((IoParser.reload drivenParse drivenFs (lit "conf.xml") {}).1.findDriver
      (-1 : Int32).toUInt32).isSome = true := by decide +kernel
  have hdrv : nodeGetAttr ⟨itemAttrK, [(lit "name", lit "a")], []⟩ (lit "drv") = [] := by decide
  have hnone := h (lit "a") _ _ hitem rfl
  rw [if_pos hdrv] at hnone
  exact absurd (hdriver.symm.trans (congrArg Option.isSome hnone)) (by simp)

end Reload

end IoEmulator.Conf
