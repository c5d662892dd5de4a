import IoEmulator.Conf.Construction
import IoEmulator.Conf.XmlText
import IoEmulator.Numerals

/-!
# The tables that can be loaded

Drivers and items can be written as entries that are read back as they were. So
all tables with the invariants of a loaded parser are the tables of a document,
and these invariants describe the tables that a program can hold exactly.
-/

namespace IoEmulator.Conf

open Foundation.FirstWinsMap

/-- An entry that is read as the driver. -/
def Driver.toNode (d : Driver) : XmlNode where
  name := drvAttrK
  attributes := [(lit "id", intToString d.id), (lit "node", intToString d.node),
    (lit "name", d.name), (lit "file", d.file),
    (lit "enable", if d.enable then lit "True" else lit "False")]
  children := []

/-- An entry that is read as the item. -/
def Item.toNode (i : Item) : XmlNode where
  name := itemAttrK
  attributes := [(lit "name", i.name), (lit "dt", dataTypeToStr i.dt),
    (lit "cat", if i.category = .io then lit "IO" else lit "Memory"),
    (lit "drv", intToString i.driverId), (lit "pr", i.pr), (lit "pw", i.pw)]
  children := []

theorem Driver.name_toNode (d : Driver) : d.toNode.name = drvAttrK := rfl

theorem Item.name_toNode (i : Item) : i.toNode.name = itemAttrK := rfl

/-- The document with these entries. -/
def confDocument (ds : List Driver) (is : List Item) : List XmlNode :=
  [⟨rootNodeK, [], [⟨drvsNodeK, [], ds.map Driver.toNode⟩, ⟨itemsNodeK, [], is.map Item.toNode⟩]⟩]

section RoundTrip

theorem optionalId_intToString (n : Int32) : optionalId (intToString n) = .ok n := by
  rw [optionalId, if_neg (denotes_intToString n).ne_nil, stoi_intToString]

theorem Driver.ofNode_toNode (d : Driver) : Driver.ofNode d.toNode = .ok d := by
  obtain ⟨id, node, name, file, enable⟩ := d
  have hid : nodeGetAttr (toNode ⟨id, node, name, file, enable⟩) (lit "id") = intToString id := rfl
  have hnode : nodeGetAttr (toNode ⟨id, node, name, file, enable⟩) (lit "node") =
      intToString node := rfl
  rw [Driver.ofNode, Driver.parseNodeAttr, hid, hnode, stoi_intToString, optionalId_intToString]
  cases enable <;> rfl

theorem Item.ofNode_toNode (i : Item) : Item.ofNode i.toNode = .ok i := by
  obtain ⟨category, dt, driverId, name, pr, pw⟩ := i
  have hdrv : nodeGetAttr (toNode ⟨category, dt, driverId, name, pr, pw⟩) (lit "drv") =
      intToString driverId := rfl
  rw [Item.ofNode, Item.parseDriverId, hdrv, optionalId_intToString]
  cases category <;> cases dt <;> rfl

theorem entries_map {α : Type} {tag name : Text} {f : α → XmlNode} (hf : ∀ a, (f a).name = tag)
    (l : List α) : entries tag ⟨name, [], l.map f⟩ = l.map f := by
  rw [entries, List.filter_eq_self]
  intro n hn
  obtain ⟨a, -, rfl⟩ := List.mem_map.mp hn
  exact decide_eq_true (hf a)

/-- Reading back what was written entry by entry. -/
theorem mapM_map_of_inverse {α ε : Type} {read : XmlNode → Except ε α} {write : α → XmlNode}
    (h : ∀ a, read (write a) = .ok a) (l : List α) : (l.map write).mapM read = .ok l := by
  rw [mapM_eq_ok_iff, List.forall₂_map_left_iff]
  exact List.forall₂_same.mpr fun a _ => h a

/-- The entries of the two sections are read as these drivers and these items. -/
def Records (doc : List XmlNode) (ds : List Driver) (is : List Item) : Prop :=
  ∃ drvs items, Sections doc drvs items ∧ (entries drvAttrK drvs).mapM Driver.ofNode = .ok ds ∧
    (entries itemAttrK items).mapM Item.ofNode = .ok is

theorem Records.tablesOf {doc : List XmlNode} {ds : List Driver} {is : List Item}
    (h : Records doc ds is) : TablesOf doc (tabulate ds is) := by
  obtain ⟨drvs, items, hsec, hds, his⟩ := h
  exact ⟨drvs, items, ds, is, hsec, hds, his, rfl⟩

theorem Records.reload {parse : XmlParse} {fs : FileSystem} {q : Text} {p : IoParser}
    {doc : List XmlNode} {ds : List Driver} {is : List Item} (h : Records doc ds is)
    (hdoc : readDocument parse fs (target p.filepath q) = some doc) :
    (p.reload parse fs q).2 = .ok () ∧
      (p.reload parse fs q).1.toTables = tabulate ds is := by
  have hok := (IoParser.reload_ok_iff hdoc).mpr ⟨_, h.tablesOf⟩
  exact ⟨hok, (IoParser.tablesOf_reload hdoc hok).unique h.tablesOf⟩

theorem records_confDocument (ds : List Driver) (is : List Item) :
    Records (confDocument ds is) ds is := by
  have hdrvs : entries drvAttrK ⟨drvsNodeK, [], ds.map Driver.toNode⟩ = ds.map Driver.toNode :=
    entries_map Driver.name_toNode ds
  have hitems : entries itemAttrK ⟨itemsNodeK, [], is.map Item.toNode⟩ = is.map Item.toNode :=
    entries_map Item.name_toNode is
  refine ⟨⟨drvsNodeK, [], ds.map Driver.toNode⟩, ⟨itemsNodeK, [], is.map Item.toNode⟩,
    ⟨_, _, _, rfl, rfl, rfl, rfl, rfl⟩, ?_, ?_⟩
  · rw [hdrvs]
    exact mapM_map_of_inverse Driver.ofNode_toNode ds
  · rw [hitems]
    exact mapM_map_of_inverse Item.ofNode_toNode is

end RoundTrip

theorem Tables.WellFormed.exists_tabulate {t : Tables} (h : t.WellFormed) :
    ∃ ds is, t = tabulate ds is := by
  obtain ⟨drivers, items, itemKeys⟩ := t
  obtain ⟨hkeys, hitems, hdrivers⟩ := h
  obtain ⟨ds, rfl⟩ := SelfKeyed.exists_indexBy hdrivers
  obtain ⟨is, rfl⟩ := SelfKeyed.exists_indexBy hitems
  refine ⟨ds, is, ?_⟩
  simp only at hkeys
  rw [hkeys, keySet_indexBy, keySet_empty]
  rfl

/-- Well-formed tables are the tables that a document can have, and the tables that
a parser in a program can hold. Written entry by entry they are loaded by every
call, on whatever parser, that finds the document, and there are such calls. -/
theorem wellFormed_iff_loadable (t : Tables) :
    (t.WellFormed ↔ ∃ doc, extract doc = .ok t) ∧
      (t.WellFormed ↔ ∃ parse p, Reachable parse p ∧ p.toTables = t) ∧
      (t.WellFormed → ∃ ds is,
        (∃ parse fs q, ∀ p : IoParser,
          readDocument parse fs (target p.filepath q) = some (confDocument ds is)) ∧
        ∀ parse fs q (p : IoParser),
          readDocument parse fs (target p.filepath q) = some (confDocument ds is) →
            (p.reload parse fs q).2 = .ok () ∧ (p.reload parse fs q).1.toTables = t) := by
  refine ⟨⟨fun h => ?_, ?_⟩, ⟨fun h => ?_, ?_⟩, fun h => ?_⟩
  · obtain ⟨ds, is, rfl⟩ := h.exists_tabulate
    exact ⟨_, (extract_eq_ok_iff _ _).mpr (records_confDocument ds is).tablesOf⟩
  · rintro ⟨doc, hx⟩
    exact ((extract_eq_ok_iff doc t).mp hx).wellFormed
  · obtain ⟨ds, is, rfl⟩ := h.exists_tabulate
    have hempty : IoParser.ofEnv (writtenParse (confDocument ds is))
        (writtenFs (confDocument ds is)) none [] = .ok {} := rfl
    have hdoc := readDocument_written (confDocument ds is) ({} : IoParser).filepath
    exact ⟨_, _, .reload (.ofEnv hempty), ((records_confDocument ds is).reload hdoc).2⟩
  · rintro ⟨parse, p, hp, rfl⟩
    exact hp.wellFormed
  · obtain ⟨ds, is, rfl⟩ := h.exists_tabulate
    refine ⟨ds, is, ⟨_, _, _, fun p => readDocument_written _ p.filepath⟩, ?_⟩
    intro parse fs q p hdoc
    exact (records_confDocument ds is).reload hdoc

end IoEmulator.Conf
