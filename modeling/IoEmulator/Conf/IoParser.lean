import IoEmulator.Conf.BasicParser
import IoEmulator.Foundation.FirstWinsMap

/-!
# The item and driver tables

`io_parser` extracts three lookup tables from the document that its base class
has read. The entry constructors, the two extraction loops, `reload`, the
lookups and the three ways of constructing a parser.

## Implementation notes

The loops work on local tables, so a throwing entry discards them. The members
are replaced together after both loops have finished.
-/

namespace IoEmulator.Conf

open Foundation.FirstWinsMap Foundation.KeySets

def rootNodeK : Text := lit "IODEF"
def drvsNodeK : Text := lit "DRIVERS"
def itemsNodeK : Text := lit "ITEMS"
def drvAttrK : Text := lit "DRV"
def itemAttrK : Text := lit "ITEM"
def ioconfPathSuffix : Text := lit "workspace/conf/conf-io.xml"

/-- `node_get_attr`: the value of the first attribute of that name, empty when
there is none. -/
def nodeGetAttr (node : XmlNode) (name : Text) : Text := (firstAttribute name node).getD []

/-- An optional numeric attribute, with `-1` standing for an absent one. -/
def optionalId (n : Text) : Except Exn Int32 := if n = [] then .ok (-1) else stoi n

structure Driver where
  id : Int32
  node : Int32
  name : Text
  file : Text
  enable : Bool
  deriving DecidableEq

/-- `driver::parse_node_attr`. -/
def Driver.parseNodeAttr (node : XmlNode) : Except Exn Int32 :=
  optionalId (nodeGetAttr node (lit "node"))

/-- `driver(const node_type *)`. The members are initialised in declaration order. -/
def Driver.ofNode (node : XmlNode) : Except Exn Driver :=
  match stoi (nodeGetAttr node (lit "id")) with
  | .error e => .error e
  | .ok id =>
      match parseNodeAttr node with
      | .error e => .error e
      | .ok n => .ok
          { id := id
            node := n
            name := nodeGetAttr node (lit "name")
            file := nodeGetAttr node (lit "file")
            enable := nodeGetAttr node (lit "enable") = lit "True" }

/-- The table key of a driver: its id converted to `std::uint32_t`. -/
def Driver.key (d : Driver) : UInt32 := d.id.toUInt32

inductive CategoryType where
  | memory
  | io
  deriving DecidableEq

inductive DataType where
  | unknown
  | intVal
  | doubleVal
  | stringVal
  deriving DecidableEq

structure Item where
  category : CategoryType
  dt : DataType
  driverId : Int32
  name : Text
  pr : Text
  pw : Text
  deriving DecidableEq

/-- `item::parse_category`. -/
def Item.parseCategory (node : XmlNode) : CategoryType :=
  if nodeGetAttr node (lit "cat") = lit "IO" then .io else .memory

/-- `item::parse_data_type`. -/
def Item.parseDataType (node : XmlNode) : DataType :=
  let n := nodeGetAttr node (lit "dt")
  if n = lit "Integer" then .intVal
  else if n = lit "Double" then .doubleVal
  else if n = lit "String" then .stringVal
  else .unknown

/-- `item::data_type_to_str`. -/
def Item.dataTypeToStr : DataType → Text
  | .intVal => lit "Integer"
  | .doubleVal => lit "Double"
  | .stringVal => lit "String"
  | .unknown => lit "Nil"

/-- `item::parse_driver_id`. -/
def Item.parseDriverId (node : XmlNode) : Except Exn Int32 :=
  optionalId (nodeGetAttr node (lit "drv"))

/-- `item(const node_type *)`. Only the driver reference can throw. -/
def Item.ofNode (node : XmlNode) : Except Exn Item :=
  match parseDriverId node with
  | .error e => .error e
  | .ok drv => .ok
      { category := parseCategory node
        dt := parseDataType node
        driverId := drv
        name := nodeGetAttr node (lit "name")
        pr := nodeGetAttr node (lit "pr")
        pw := nodeGetAttr node (lit "pw") }

/-- The line `pretty_print` writes. -/
def Item.prettyPrint (i : Item) : Text :=
  lit "[name: " ++ i.name ++ lit "]" ++
  lit "[dt: " ++ dataTypeToStr i.dt ++ lit "]" ++
  lit "[cat: " ++ (if i.category = .io then lit "IO" else lit "Memory") ++ lit "]" ++
  lit "[drv: " ++ (if 0 ≤ i.driverId.toInt then intToString i.driverId else lit "Nil") ++ lit "]" ++
  lit "[pr: " ++ (if i.pr = [] then lit "Nil" else i.pr) ++ lit "]" ++
  lit "[pw: " ++ (if i.pw = [] then lit "Nil" else i.pw) ++ lit "]"

/-- The three lookup tables of `io_parser`. -/
structure Tables where
  drivers : KeyMap UInt32 Driver := ∅
  items : KeyMap Text Item := ∅
  itemKeys : KeySet Text := ∅

/-- The members of `io_parser`. -/
structure IoParser extends BasicParser, Tables

/-- The drivers loop of `reload` over the visited siblings. -/
def loadDrivers (nodes : List XmlNode) : Except Exn (KeyMap UInt32 Driver) :=
  nodes.foldlM (fun drivers node =>
    if node.name = drvAttrK then
      (Driver.ofNode node).map fun drv => emplace drv.key drv drivers
    else .ok drivers) ∅

/-- The items loop of `reload`, which fills the key set and the item table. -/
def loadItems (nodes : List XmlNode) : Except Exn (KeySet Text × KeyMap Text Item) :=
  nodes.foldlM (fun (itemKeys, items) node =>
    if node.name = itemAttrK then
      (Item.ofNode node).map fun i => (insert i.name itemKeys, emplace i.name i items)
    else .ok (itemKeys, items)) (∅, ∅)

/-- The error of a missing section. -/
def nodeNotFound (name : Text) : Exn :=
  .runtimeError (lit "failed to parse, node was not found: " ++ name)

/-- The part of `io_parser::reload` between the base call and the commit: locate
the sections and fill fresh tables. -/
def extract (doc : List XmlNode) : Except Exn Tables :=
  match firstNode rootNodeK doc with
  | none => .error (nodeNotFound rootNodeK)
  | some root =>
      match firstNode drvsNodeK root.node.children with
      | none => .error (nodeNotFound drvsNodeK)
      | some drvs =>
          match nextSibling itemsNodeK drvs with
          | none => .error (nodeNotFound itemsNodeK)
          | some items =>
              match loadDrivers (siblingsFrom drvAttrK drvs.node) with
              | .error e => .error e
              | .ok drivers =>
                  (loadItems (siblingsFrom itemAttrK items.node)).map fun (itemKeys, items) =>
                    { drivers := drivers, items := items, itemKeys := itemKeys }

namespace IoParser

/-- The nodes `xmldoc_` points to. It is read only after a base `reload` that
returned, when the pointer is not null. -/
def documentNodes (p : BasicParser) : List XmlNode := (p.xmldoc.map XmlDoc.nodes).getD []

/-- `io_parser::reload`. -/
def reload (parse : XmlParse) (fs : FileSystem) (filepath : Text) (p : IoParser) :
    IoParser × Except Exn Unit :=
  match p.toBasicParser.reload parse fs filepath with
  | (base, .error e) => ({ p with toBasicParser := base }, .error e)
  | (base, .ok ()) =>
      match extract (documentNodes base) with
      | .error e => ({ p with toBasicParser := base }, .error e)
      | .ok tables => ({ toBasicParser := base, toTables := tables }, .ok ())

/-- `io_parser(const path &)`, inherited: the tables stay at their defaults,
because the base constructor cannot call the override. -/
def ofPath (parse : XmlParse) (fs : FileSystem) (filepath : Text) : Except Exn IoParser :=
  (BasicParser.ofPath parse fs filepath).map fun base => { toBasicParser := base }

/-- `io_parser(path &&)`, inherited in the same way. -/
def ofMovedPath (parse : XmlParse) (fs : FileSystem) (filepath : Text) : Except Exn IoParser :=
  (BasicParser.ofMovedPath parse fs filepath).map fun base => { toBasicParser := base }

/-- `operator/=` of a nonempty POSIX path with a relative one. -/
def appendPath (root suffix : Text) : Text :=
  if root.getLast? = some ⟨47, by decide⟩ then root ++ suffix else root ++ lit "/" ++ suffix

/-- The path the environment constructor loads, if any: the variable's value, or
the project's file when the variable is unset and a project is current. -/
def envPath (value : Option Text) (eqProj : Text) : Option Text :=
  match value with
  | some v => some v
  | none => if eqProj = [] then none else some (appendPath eqProj ioconfPathSuffix)

/-- `io_parser(env_key)`, given the variable's value and the current project's
root. With neither it warns and stays empty. -/
def ofEnv (parse : XmlParse) (fs : FileSystem) (value : Option Text) (eqProj : Text) :
    Except Exn IoParser :=
  match envPath value eqProj with
  | none => .ok {}
  | some filepath =>
      let r := reload parse fs filepath {}
      r.2.map fun _ => r.1

def findDriver (p : IoParser) (id : UInt32) : Option Driver := p.drivers.find id

def findItem (p : IoParser) (name : Text) : Option Item := p.items.find name

/-- Two parsers with the same path and tables are reloaded alike. -/
theorem reload_congr (parse : XmlParse) (fs : FileSystem) (q : Text) {p p' : IoParser}
    (hpath : p.filepath = p'.filepath) (htab : p.toTables = p'.toTables) :
    (p.reload parse fs q).2 = (p'.reload parse fs q).2 ∧
      (p.reload parse fs q).1.filepath = (p'.reload parse fs q).1.filepath ∧
      (p.reload parse fs q).1.toTables = (p'.reload parse fs q).1.toTables := by
  obtain ⟨hout, hfile, hdoc⟩ := BasicParser.reload_congr parse fs q hpath
  revert hout hfile hdoc
  unfold reload
  rcases p.toBasicParser.reload parse fs q with ⟨base, e | u⟩ <;>
    rcases p'.toBasicParser.reload parse fs q with ⟨base', e' | u'⟩
  · rintro ⟨⟩ hfile -
    exact ⟨rfl, hfile, htab⟩
  · rintro ⟨⟩
  · rintro ⟨⟩
  · rintro - hfile hdoc
    have hnodes : documentNodes base = documentNodes base' := by simp [documentNodes, hdoc rfl]
    simp only [hnodes]
    cases extract (documentNodes base') with
    | error e => exact ⟨rfl, hfile, htab⟩
    | ok t => exact ⟨rfl, hfile, rfl⟩

/-- Everything a `reload` can do. It throws before the document is there and
keeps path and tables; or it throws on the document's contents, keeping the
tables but not the path; or it stores the tables of the document of its target. -/
theorem reload_cases (parse : XmlParse) (fs : FileSystem) (q : Text) (p : IoParser) :
    (readDocument parse fs (target p.filepath q) = none ∧
      ∃ p' e, p.reload parse fs q = (p', .error e) ∧ p'.filepath = p.filepath ∧
        p'.toTables = p.toTables) ∨
    (∃ nodes e p', readDocument parse fs (target p.filepath q) = some nodes ∧
      extract nodes = .error e ∧ p.reload parse fs q = (p', .error e) ∧
      p'.filepath = target p.filepath q ∧ p'.toTables = p.toTables) ∨
    (∃ nodes t p', readDocument parse fs (target p.filepath q) = some nodes ∧
      extract nodes = .ok t ∧ p.reload parse fs q = (p', .ok ()) ∧
      p'.filepath = target p.filepath q ∧ p'.toTables = t) := by
  rcases p.toBasicParser.reload_cases parse fs q with
    ⟨hdoc, base, e, hbase, hpath⟩ | ⟨nodes, base, source, hdoc, hbase, hpath, hxml⟩
  · exact Or.inl ⟨hdoc, { p with toBasicParser := base }, e, by simp [reload, hbase], hpath, rfl⟩
  · have hnodes : documentNodes base = nodes := by simp [documentNodes, hxml]
    cases hx : extract nodes with
    | error e =>
        exact Or.inr (Or.inl ⟨nodes, e, { p with toBasicParser := base }, hdoc, hx,
          by simp [reload, hbase, hnodes, hx], hpath, rfl⟩)
    | ok t =>
        exact Or.inr (Or.inr ⟨nodes, t, { toBasicParser := base, toTables := t }, hdoc, hx,
          by simp [reload, hbase, hnodes, hx], hpath, rfl⟩)

/-- A call that finds a document ends as the extraction from it does. -/
theorem reload_outcome {parse : XmlParse} {fs : FileSystem} {q : Text} {p : IoParser}
    {doc : List XmlNode} (hdoc : readDocument parse fs (target p.filepath q) = some doc) :
    (p.reload parse fs q).2 = (extract doc).map fun _ => () := by
  rcases p.reload_cases parse fs q with
    ⟨hnone, -⟩ | ⟨doc', e, p', hdoc', hx, hrun, -⟩ | ⟨doc', t, p', hdoc', hx, hrun, -⟩
  · simp [hnone] at hdoc
  · obtain rfl := Option.some.inj (hdoc'.symm.trans hdoc)
    simp [hrun, hx, Except.map]
  · obtain rfl := Option.some.inj (hdoc'.symm.trans hdoc)
    simp [hrun, hx, Except.map]

/-- A call that throws keeps the tables. -/
theorem reload_failed_tables {parse : XmlParse} {fs : FileSystem} {q : Text} {p : IoParser}
    (h : (p.reload parse fs q).2 ≠ .ok ()) : (p.reload parse fs q).1.toTables = p.toTables := by
  rcases p.reload_cases parse fs q with
    ⟨-, p', e, hrun, -, htab⟩ | ⟨-, e, p', -, -, hrun, -, htab⟩ | ⟨-, t, p', -, -, hrun, -⟩
  · rw [hrun]
    exact htab
  · rw [hrun]
    exact htab
  · simp [hrun] at h

end IoParser

end IoEmulator.Conf
