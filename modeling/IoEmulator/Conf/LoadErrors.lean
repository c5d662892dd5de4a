import IoEmulator.Conf.Acceptance

/-!
# Which error a load reports

A load checks the file, then the sections, then the entries of the drivers and
last those of the items, and throws at the first check that fails. The faults of
a file and of a document are described without these checks, and a load throws
an error exactly when it is the error of a fault.
-/

namespace IoEmulator.Conf

open Foundation.FirstWinsMap

/-- What can be wrong with the file that a load reads. -/
inductive FileFault (parse : XmlParse) (fs : FileSystem) (current q : Text) : Exn → Prop
  | status {e} (h : fs.isRegularFile (target current q) = .error e) :
      FileFault parse fs current q e
  | noCurrent (hq : q = []) (h : fs.isRegularFile current = .ok false) :
      FileFault parse fs current q (.runtimeError (lit "bad filepath"))
  | notRegular (hq : q ≠ []) (h : fs.isRegularFile q = .ok false) :
      FileFault parse fs current q (.runtimeError (lit "invalid filepath: " ++ q))
  | closed (hreg : fs.isRegularFile (target current q) = .ok true)
      (h : fs.openFile (target current q) = none) :
      FileFault parse fs current q (.runtimeError (lit "cannot open file: " ++ target current q))
  | noBytes {file} (hreg : fs.isRegularFile (target current q) = .ok true)
      (hopen : fs.openFile (target current q) = some file) (h : file.size ≤ 0) :
      FileFault parse fs current q (.runtimeError (lit "bad file: " ++ target current q))
  | unreadable {file} (hreg : fs.isRegularFile (target current q) = .ok true)
      (hopen : fs.openFile (target current q) = some file) (hsize : 0 < file.size)
      (h : file.read = none) :
      FileFault parse fs current q (.runtimeError (lit "cannot read file: " ++ target current q))
  | malformed {file bytes e} (hreg : fs.isRegularFile (target current q) = .ok true)
      (hopen : fs.openFile (target current q) = some file) (hsize : 0 < file.size)
      (hread : file.read = some bytes) (h : parse (bytes ++ [0]) = .error e) :
      FileFault parse fs current q e

/-- The value of a numeric attribute is no numeral, or one out of range. -/
def NumericFault (n : Text) (e : Exn) : Prop := n ≠ [] ∧ stoi n = .error e

/-- What can be wrong with a `DRV` entry: first its `id`, then its `node`. -/
def DriverFault (node : XmlNode) (e : Exn) : Prop :=
  stoi (nodeGetAttr node (lit "id")) = .error e ∨
    Convertible (nodeGetAttr node (lit "id")) ∧ NumericFault (nodeGetAttr node (lit "node")) e

/-- What can be wrong with an `ITEM` entry: its `drv`. -/
def ItemFault (node : XmlNode) (e : Exn) : Prop :=
  NumericFault (nodeGetAttr node (lit "drv")) e

/-- What can be wrong with a document. -/
inductive DocumentFault (doc : List XmlNode) : Exn → Prop
  | noRoot (h : ∀ n ∈ doc, n.name ≠ rootNodeK) : DocumentFault doc (nodeNotFound rootNodeK)
  | noDrivers {root} (hroot : FirstRoot doc root) (h : ∀ n ∈ root.children, n.name ≠ drvsNodeK) :
      DocumentFault doc (nodeNotFound drvsNodeK)
  | noItems {root drvs first rest} (hroot : FirstRoot doc root)
      (hchildren : root.children = first ++ drvs :: rest) (hdrvs : drvs.name = drvsNodeK)
      (hfirst : ∀ n ∈ first, n.name ≠ drvsNodeK) (h : ∀ n ∈ rest, n.name ≠ itemsNodeK) :
      DocumentFault doc (nodeNotFound itemsNodeK)
  | driver {drvs items before node after e} (hlayout : Layout doc drvs items)
      (hentries : entries drvAttrK drvs = before ++ node :: after)
      (hbefore : ∀ n ∈ before, DriverReadable n) (h : DriverFault node e) : DocumentFault doc e
  | item {drvs items before node after e} (hlayout : Layout doc drvs items)
      (hdrivers : ∀ n ∈ entries drvAttrK drvs, DriverReadable n)
      (hentries : entries itemAttrK items = before ++ node :: after)
      (hbefore : ∀ n ∈ before, ItemReadable n) (h : ItemFault node e) : DocumentFault doc e

section Entries

theorem optionalId_eq_error_iff (n : Text) (e : Exn) :
    optionalId n = .error e ↔ NumericFault n e := by
  by_cases hn : n = []
  · simp [optionalId, NumericFault, hn]
  · simp [optionalId, NumericFault, hn]

theorem Driver.ofNode_eq_error_iff (node : XmlNode) (e : Exn) :
    Driver.ofNode node = .error e ↔ DriverFault node e := by
  rw [DriverFault, ← optionalId_eq_error_iff, Convertible, Driver.ofNode, Driver.parseNodeAttr]
  cases stoi (nodeGetAttr node (lit "id")) with
  | error e' => simp
  | ok id => cases optionalId (nodeGetAttr node (lit "node")) <;> simp

theorem Item.ofNode_eq_error_iff (node : XmlNode) (e : Exn) :
    Item.ofNode node = .error e ↔ ItemFault node e := by
  rw [ItemFault, ← optionalId_eq_error_iff, Item.ofNode, Item.parseDriverId]
  cases optionalId (nodeGetAttr node (lit "drv")) <;> simp

theorem drivers_eq_error_iff (l : List XmlNode) (e : Exn) :
    l.mapM Driver.ofNode = .error e ↔ ∃ before node after, l = before ++ node :: after ∧
      (∀ n ∈ before, DriverReadable n) ∧ DriverFault node e := by
  simp only [mapM_eq_error_iff, exists_driver_iff, Driver.ofNode_eq_error_iff]

theorem items_eq_error_iff (l : List XmlNode) (e : Exn) :
    l.mapM Item.ofNode = .error e ↔ ∃ before node after, l = before ++ node :: after ∧
      (∀ n ∈ before, ItemReadable n) ∧ ItemFault node e := by
  simp only [mapM_eq_error_iff, exists_item_iff, Item.ofNode_eq_error_iff]

end Entries

section Documents

variable {doc : List XmlNode} {e : Exn}

/-- Behind located sections the faults are those of the entries. -/
theorem extract_eq_error_of_layout {drvs items : XmlNode} (hlayout : Layout doc drvs items) :
    extract doc = .error e ↔
      (∃ before node after, entries drvAttrK drvs = before ++ node :: after ∧
        (∀ n ∈ before, DriverReadable n) ∧ DriverFault node e) ∨
      ((∀ n ∈ entries drvAttrK drvs, DriverReadable n) ∧
        ∃ before node after, entries itemAttrK items = before ++ node :: after ∧
          (∀ n ∈ before, ItemReadable n) ∧ ItemFault node e) := by
  have hread : (∀ n ∈ entries drvAttrK drvs, DriverReadable n) ↔
      ∃ ds, (entries drvAttrK drvs).mapM Driver.ofNode = .ok ds := by
    simp only [exists_mapM_eq_ok_iff, exists_driver_iff]
  rw [extract_of_sections ((sections_iff_layout _ _ _).mpr hlayout), hread,
    ← drivers_eq_error_iff, ← items_eq_error_iff]
  cases (entries drvAttrK drvs).mapM Driver.ofNode with
  | error e' => simp [Except.bind]
  | ok ds => cases (entries itemAttrK items).mapM Item.ofNode <;> simp [Except.bind, Except.map]

/-- The loader throws exactly the errors of the faults of the document. -/
theorem extract_eq_error_iff : extract doc = .error e ↔ DocumentFault doc e := by
  constructor
  · intro h
    cases hroot : firstNode rootNodeK doc with
    | none =>
        simp only [extract, hroot, Except.error.injEq] at h
        subst h
        exact .noRoot ((firstNode_eq_none_iff _ _).mp hroot)
    | some root =>
        obtain ⟨before, hdoc, hname, hbefore⟩ := (firstNode_eq_some_iff _ _ _).mp hroot
        have hfirst : FirstRoot doc root.node := ⟨before, root.later, hdoc, hname, hbefore⟩
        cases hdrvs : firstNode drvsNodeK root.node.children with
        | none =>
            simp only [extract, hroot, hdrvs, Except.error.injEq] at h
            subst h
            exact .noDrivers hfirst ((firstNode_eq_none_iff _ _).mp hdrvs)
        | some d =>
            obtain ⟨first, hchildren, hdname, hfront⟩ := (firstNode_eq_some_iff _ _ _).mp hdrvs
            cases hitems : nextSibling itemsNodeK d with
            | none =>
                simp only [extract, hroot, hdrvs, hitems, Except.error.injEq] at h
                subst h
                exact .noItems hfirst hchildren hdname hfront
                  ((firstNode_eq_none_iff _ _).mp hitems)
            | some i =>
                have hlayout : Layout doc d.node i.node :=
                  (sections_iff_layout _ _ _).mp ⟨root, d, i, hroot, hdrvs, hitems, rfl, rfl⟩
                rcases (extract_eq_error_of_layout hlayout).mp h with
                  ⟨before, node, after, hentries, hread, hfault⟩ |
                  ⟨hdrivers, before, node, after, hentries, hread, hfault⟩
                · exact .driver hlayout hentries hread hfault
                · exact .item hlayout hdrivers hentries hread hfault
  · intro h
    cases h with
    | noRoot h => simp only [extract, (firstNode_eq_none_iff _ _).mpr h]
    | @noDrivers root hroot h =>
        obtain ⟨before, after, hdoc, hname, hbefore⟩ := hroot
        have hfound : firstNode rootNodeK doc = some ⟨root, after⟩ :=
          (firstNode_eq_some_iff _ _ _).mpr ⟨before, hdoc, hname, hbefore⟩
        simp only [extract, hfound, (firstNode_eq_none_iff _ _).mpr h]
    | @noItems root drvs first rest hroot hchildren hdrvs hfirst h =>
        obtain ⟨before, after, hdoc, hname, hbefore⟩ := hroot
        have hfound : firstNode rootNodeK doc = some ⟨root, after⟩ :=
          (firstNode_eq_some_iff _ _ _).mpr ⟨before, hdoc, hname, hbefore⟩
        have hfound' : firstNode drvsNodeK root.children = some ⟨drvs, rest⟩ :=
          (firstNode_eq_some_iff _ _ _).mpr ⟨first, hchildren, hdrvs, hfirst⟩
        simp only [extract, hfound, hfound', nextSibling, (firstNode_eq_none_iff _ _).mpr h]
    | driver hlayout hentries hbefore h =>
        exact (extract_eq_error_of_layout hlayout).mpr (Or.inl ⟨_, _, _, hentries, hbefore, h⟩)
    | item hlayout hdrivers hentries hbefore h =>
        exact (extract_eq_error_of_layout hlayout).mpr
          (Or.inr ⟨hdrivers, _, _, _, hentries, hbefore, h⟩)

end Documents

section Files

variable (parse : XmlParse) (fs : FileSystem) (q : Text)

theorem choosePath_eq_error_iff (current : Text) (e : Exn) :
    choosePath fs current q = .error e ↔ fs.isRegularFile (target current q) = .error e ∨
      (q = [] ∧ fs.isRegularFile current = .ok false ∧ .runtimeError (lit "bad filepath") = e) ∨
      (q ≠ [] ∧ fs.isRegularFile q = .ok false ∧
        .runtimeError (lit "invalid filepath: " ++ q) = e) := by
  by_cases hq : q = []
  · rw [target, if_pos hq, choosePath, if_pos hq]
    rcases fs.isRegularFile current with e' | (_ | _) <;> simp [hq]
  · rw [target, if_neg hq, choosePath, if_neg hq]
    rcases fs.isRegularFile q with e' | (_ | _) <;> simp [hq]

theorem choosePath_eq_ok_iff (current path : Text) :
    choosePath fs current q = .ok path ↔
      fs.isRegularFile (target current q) = .ok true ∧ target current q = path := by
  rcases choosePath_cases fs current q with ⟨hreg, hpath⟩ | ⟨hreg, e, hpath⟩
  · simp [hpath, hreg]
  · simp [hpath, hreg]

/-- What `make_buffer` throws on an opened file. -/
theorem makeBuffer_eq_error_iff (path : Text) (e : Exn) :
    makeBuffer fs path = .error e ↔
      (fs.openFile path = none ∧ .runtimeError (lit "cannot open file: " ++ path) = e) ∨
      ∃ file, fs.openFile path = some file ∧
        ((file.size ≤ 0 ∧ .runtimeError (lit "bad file: " ++ path) = e) ∨
          (0 < file.size ∧ file.read = none ∧
            .runtimeError (lit "cannot read file: " ++ path) = e)) := by
  unfold makeBuffer
  cases fs.openFile path with
  | none => simp
  | some file =>
      by_cases hsize : file.size ≤ 0
      · simp [hsize, not_lt.mpr hsize]
      · cases hread : file.read <;> simp [hsize, not_le.mp hsize, hread]

theorem makeBuffer_eq_ok_iff (path : Text) (buffer : List UInt8) :
    makeBuffer fs path = .ok buffer ↔ ∃ file bytes, fs.openFile path = some file ∧
      0 < file.size ∧ file.read = some bytes ∧ bytes ++ [0] = buffer := by
  unfold makeBuffer
  cases fs.openFile path with
  | none => simp
  | some file =>
      by_cases hsize : file.size ≤ 0
      · simp [hsize, not_lt.mpr hsize]
      · cases hread : file.read <;> simp [hsize, not_le.mp hsize, hread]

/-- The base class chooses the path, fills the buffer and parses it. -/
theorem BasicParser.reload_outcome (p : BasicParser) :
    (p.reload parse fs q).2 = (choosePath fs p.filepath q).bind fun path =>
      (makeBuffer fs path).bind fun buffer => (parse buffer).map fun _ => () := by
  unfold BasicParser.reload
  cases choosePath fs p.filepath q with
  | error e => rfl
  | ok path =>
      simp only [Except.bind]
      cases makeBuffer fs path with
      | error e => rfl
      | ok buffer =>
          simp only [makeXmldoc]
          cases parse buffer with
          | error e => rfl
          | ok nodes =>
              simp only [Except.map]
              split <;> rfl

/-- The base class throws exactly the errors of the faults of the file. -/
theorem BasicParser.reload_fails_iff (p : BasicParser) (e : Exn) :
    (p.reload parse fs q).2 = .error e ↔ FileFault parse fs p.filepath q e := by
  have hparse : ∀ buffer, (parse buffer).map (fun _ => ()) = .error e ↔
      parse buffer = .error e := by
    intro buffer
    cases parse buffer <;> simp [Except.map]
  simp only [BasicParser.reload_outcome, bind_eq_error_iff, choosePath_eq_error_iff,
    choosePath_eq_ok_iff, makeBuffer_eq_error_iff, makeBuffer_eq_ok_iff, hparse]
  constructor
  · rintro ((h | ⟨hq, h, rfl⟩ | ⟨hq, h, rfl⟩) | ⟨_, ⟨hreg, rfl⟩,
      (⟨h, rfl⟩ | ⟨file, hopen, ⟨h, rfl⟩ | ⟨hsize, h, rfl⟩⟩) |
      ⟨_, ⟨file, bytes, hopen, hsize, hread, rfl⟩, h⟩⟩)
    · exact .status h
    · exact .noCurrent hq h
    · exact .notRegular hq h
    · exact .closed hreg h
    · exact .noBytes hreg hopen h
    · exact .unreadable hreg hopen hsize h
    · exact .malformed hreg hopen hsize hread h
  · intro h
    cases h with
    | status h => exact Or.inl (Or.inl h)
    | noCurrent hq h => exact Or.inl (Or.inr (Or.inl ⟨hq, h, rfl⟩))
    | notRegular hq h => exact Or.inl (Or.inr (Or.inr ⟨hq, h, rfl⟩))
    | closed hreg h => exact Or.inr ⟨_, ⟨hreg, rfl⟩, Or.inl (Or.inl ⟨h, rfl⟩)⟩
    | noBytes hreg hopen h =>
        exact Or.inr ⟨_, ⟨hreg, rfl⟩, Or.inl (Or.inr ⟨_, hopen, Or.inl ⟨h, rfl⟩⟩)⟩
    | unreadable hreg hopen hsize h =>
        exact Or.inr ⟨_, ⟨hreg, rfl⟩, Or.inl (Or.inr ⟨_, hopen, Or.inr ⟨hsize, h, rfl⟩⟩)⟩
    | malformed hreg hopen hsize hread h =>
        exact Or.inr ⟨_, ⟨hreg, rfl⟩, Or.inr ⟨_, ⟨_, _, hopen, hsize, hread, rfl⟩, h⟩⟩

/-- A load throws exactly the errors of the faults of its file or, when the file
holds a document, of this document. -/
theorem IoParser.reload_eq_error_iff (p : IoParser) (e : Exn) :
    (p.reload parse fs q).2 = .error e ↔ FileFault parse fs p.filepath q e ∨
      ∃ doc, readDocument parse fs (target p.filepath q) = some doc ∧ DocumentFault doc e := by
  simp only [← extract_eq_error_iff, ← BasicParser.reload_fails_iff]
  rcases p.toBasicParser.reload_cases parse fs q with
    ⟨hdoc, base, e', hbase, -⟩ | ⟨nodes, base, source, hdoc, hbase, -, -⟩
  · simp [IoParser.reload, hbase, hdoc]
  · simp only [IoParser.reload_outcome hdoc, hbase, hdoc, Option.some.injEq, exists_eq_left']
    cases extract nodes <;> simp [Except.map]

end Files

end IoEmulator.Conf
