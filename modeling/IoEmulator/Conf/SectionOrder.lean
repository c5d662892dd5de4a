import IoEmulator.Conf.Acceptance
import IoEmulator.Conf.XmlText

/-!
# The order of the two sections

The loader looks for `ITEMS` among the later siblings of `DRIVERS` only. A
document with both sections is therefore reported incomplete when they stand in
the other order, and exchanging the sections of a loadable document makes it
unloadable.
-/

namespace IoEmulator.Conf

open Foundation.FirstWinsMap

/-- The first `IODEF` has a `DRIVERS` and an `ITEMS` child, anywhere. -/
def HasSections (doc : List XmlNode) : Prop :=
  ∃ root, FirstRoot doc root ∧ (∃ n ∈ root.children, n.name = drvsNodeK) ∧
    ∃ n ∈ root.children, n.name = itemsNodeK

/-- The first `IODEF` of `doc` has `drvs` and `items` for its only sections, and
`doc'` is `doc` with the two exchanged. -/
def Exchanged (doc doc' : List XmlNode) (drvs items : XmlNode) : Prop :=
  drvs.name = drvsNodeK ∧ items.name = itemsNodeK ∧
    ∃ before root after x y a b c,
      ((x = drvs ∧ y = items) ∨ (x = items ∧ y = drvs)) ∧ root.name = rootNodeK ∧
      (∀ n ∈ before, n.name ≠ rootNodeK) ∧ root.children = a ++ x :: (b ++ y :: c) ∧
      (∀ n ∈ a ++ b ++ c, n.name ≠ drvsNodeK ∧ n.name ≠ itemsNodeK) ∧
      doc = before ++ root :: after ∧
      doc' = before ++ { root with children := a ++ y :: (b ++ x :: c) } :: after

section Layouts

theorem Layout.unique {doc : List XmlNode} {drvs items drvs' items' : XmlNode}
    (h : Layout doc drvs items) (h' : Layout doc drvs' items') : drvs = drvs' ∧ items = items' :=
  ((sections_iff_layout _ _ _).mpr h).unique ((sections_iff_layout _ _ _).mpr h')

/-- Whether a document with this layout is of the format depends on the entries
of its two sections only. -/
theorem Layout.accepted_iff {doc : List XmlNode} {drvs items : XmlNode}
    (h : Layout doc drvs items) : Accepted doc ↔ EntriesReadable drvs items := by
  constructor
  · rintro ⟨drvs', items', h', hread⟩
    obtain ⟨rfl, rfl⟩ := h'.unique h
    exact hread
  · intro hread
    exact ⟨drvs, items, h, hread⟩

/-- With `ITEMS` in front of the only `DRIVERS` there is no layout. -/
theorem no_layout_of_items_first {doc : List XmlNode} {root drvs items : XmlNode}
    {a b c : List XmlNode} (hroot : FirstRoot doc root) (hdrvs : drvs.name = drvsNodeK)
    (hitems : items.name = itemsNodeK) (hchildren : root.children = a ++ items :: (b ++ drvs :: c))
    (hothers : ∀ n ∈ a ++ b ++ c, n.name ≠ drvsNodeK ∧ n.name ≠ itemsNodeK) :
    ¬ ∃ drvs' items', Layout doc drvs' items' := by
  rintro ⟨drvs', items', hlayout⟩
  obtain ⟨p, d, i, hp, hd, hi, -⟩ := (sections_iff_layout _ _ _).mpr hlayout
  obtain ⟨before, after, hdoc, hname, hbefore⟩ := hroot
  have hp' : firstNode rootNodeK doc = some ⟨root, after⟩ :=
    (firstNode_eq_some_iff _ _ _).mpr ⟨before, hdoc, hname, hbefore⟩
  obtain rfl := Option.some.inj (hp.symm.trans hp')
  have hfront : ∀ n ∈ a ++ items :: b, n.name ≠ drvsNodeK := by
    intro n hn
    rcases List.mem_append.mp hn with hn | hn
    · exact (hothers n (by simp [hn])).1
    · rcases List.mem_cons.mp hn with rfl | hn
      · rw [hitems]
        decide
      · exact (hothers n (by simp [hn])).1
  have hd' : firstNode drvsNodeK root.children = some ⟨drvs, c⟩ :=
    (firstNode_eq_some_iff _ _ _).mpr ⟨a ++ items :: b, by simp [hchildren], hdrvs, hfront⟩
  obtain rfl := Option.some.inj (hd.symm.trans hd')
  have hnone : firstNode itemsNodeK c = none :=
    (firstNode_eq_none_iff _ _).mpr fun n hn => (hothers n (by simp [hn])).2
  rw [nextSibling, hnone] at hi
  simp at hi

theorem Exchanged.symm {doc doc' : List XmlNode} {drvs items : XmlNode}
    (h : Exchanged doc doc' drvs items) : Exchanged doc' doc drvs items := by
  obtain ⟨hd, hi, before, ⟨name, attributes, children⟩, after, x, y, a, b, c, hxy, hname, hbefore,
    hchildren, hothers, rfl, rfl⟩ := h
  obtain rfl : children = a ++ x :: (b ++ y :: c) := hchildren
  exact ⟨hd, hi, before, ⟨name, attributes, a ++ y :: (b ++ x :: c)⟩, after, y, x, a, b, c,
    hxy.symm.imp And.symm And.symm, hname, hbefore, rfl, hothers, rfl, rfl⟩

/-- Exactly one of the two documents has a layout, with the same sections. -/
theorem Exchanged.layout {doc doc' : List XmlNode} {drvs items : XmlNode}
    (h : Exchanged doc doc' drvs items) :
    (Layout doc drvs items ∧ ¬ ∃ d i, Layout doc' d i) ∨
      (Layout doc' drvs items ∧ ¬ ∃ d i, Layout doc d i) := by
  obtain ⟨hd, hi, before, root, after, x, y, a, b, c, hxy, hname, hbefore, hchildren, hothers,
    rfl, rfl⟩ := h
  have hroot : FirstRoot (before ++ root :: after) root := ⟨before, after, rfl, hname, hbefore⟩
  have hroot' : FirstRoot (before ++ { root with children := a ++ y :: (b ++ x :: c) } :: after)
      { root with children := a ++ y :: (b ++ x :: c) } := ⟨before, after, rfl, hname, hbefore⟩
  have ha : ∀ n ∈ a, n.name ≠ drvsNodeK := fun n hn => (hothers n (by simp [hn])).1
  have hb : ∀ n ∈ b, n.name ≠ itemsNodeK := fun n hn => (hothers n (by simp [hn])).2
  rcases hxy with ⟨rfl, rfl⟩ | ⟨rfl, rfl⟩
  · left
    exact ⟨⟨root, hroot, a, b, c, hchildren, hd, ha, hi, hb⟩,
      no_layout_of_items_first hroot' hd hi rfl hothers⟩
  · right
    exact ⟨⟨_, hroot', a, b, c, rfl, hd, ha, hi, hb⟩,
      no_layout_of_items_first hroot hd hi hchildren hothers⟩

end Layouts

section Errors

theorem optionalId_error {n : Text} {e : Exn} (h : optionalId n = .error e) :
    e = .invalidArgument (lit "stoi") ∨ e = .outOfRange (lit "stoi") := by
  unfold optionalId at h
  split at h
  · simp at h
  · exact stoi_error h

theorem Driver.ofNode_error {node : XmlNode} {e : Exn} (h : Driver.ofNode node = .error e) :
    e = .invalidArgument (lit "stoi") ∨ e = .outOfRange (lit "stoi") := by
  unfold Driver.ofNode at h
  split at h
  · rename_i hid
    obtain rfl := Except.error.inj h
    exact stoi_error hid
  · split at h
    · rename_i hnode
      obtain rfl := Except.error.inj h
      exact optionalId_error hnode
    · simp at h

theorem Item.ofNode_error {node : XmlNode} {e : Exn} (h : Item.ofNode node = .error e) :
    e = .invalidArgument (lit "stoi") ∨ e = .outOfRange (lit "stoi") := by
  unfold Item.ofNode at h
  split at h
  · rename_i hdrv
    obtain rfl := Except.error.inj h
    exact optionalId_error hdrv
  · simp at h

/-- Once the sections are located, only a conversion can fail. -/
theorem extract_error_of_sections {doc : List XmlNode} {drvs items : XmlNode} {e : Exn}
    (hsec : Sections doc drvs items) (h : extract doc = .error e) :
    e = .invalidArgument (lit "stoi") ∨ e = .outOfRange (lit "stoi") := by
  rw [extract_of_sections hsec] at h
  cases hds : (entries drvAttrK drvs).mapM Driver.ofNode with
  | error e' =>
      obtain rfl : e' = e := by simpa [hds, Except.bind] using h
      obtain ⟨node, -, hnode⟩ := exists_of_mapM_eq_error hds
      exact Driver.ofNode_error hnode
  | ok ds =>
      cases his : (entries itemAttrK items).mapM Item.ofNode with
      | error e' =>
          obtain rfl : e' = e := by simpa [hds, his, Except.bind, Except.map] using h
          obtain ⟨node, -, hnode⟩ := exists_of_mapM_eq_error his
          exact Item.ofNode_error hnode
      | ok is => simp [hds, his, Except.bind, Except.map] at h

/-- Without a layout the loader reports a section as missing. -/
theorem extract_of_no_layout {doc : List XmlNode} (h : ¬ ∃ drvs items, Layout doc drvs items) :
    ∃ name, extract doc = .error (nodeNotFound name) := by
  unfold extract
  split
  · exact ⟨_, rfl⟩
  · rename_i root hroot
    split
    · exact ⟨_, rfl⟩
    · rename_i d hd
      split
      · exact ⟨_, rfl⟩
      · rename_i i hi
        have hsec : Sections doc d.node i.node := ⟨root, d, i, hroot, hd, hi, rfl, rfl⟩
        exact absurd ⟨_, _, (sections_iff_layout _ _ _).mp hsec⟩ h

/-- The loader reports no section as missing exactly on documents with a layout. -/
theorem extract_not_missing_iff (doc : List XmlNode) :
    (∀ name, extract doc ≠ .error (nodeNotFound name)) ↔ ∃ drvs items, Layout doc drvs items := by
  constructor
  · intro h
    by_contra hno
    obtain ⟨name, hname⟩ := extract_of_no_layout hno
    exact h name hname
  · rintro ⟨drvs, items, hlayout⟩ name herr
    have := extract_error_of_sections ((sections_iff_layout _ _ _).mpr hlayout) herr
    simp [nodeNotFound] at this

end Errors

section Reload

variable {parse : XmlParse} {fs fs' : FileSystem} {q : Text} {p : IoParser}
  {doc doc' : List XmlNode} {drvs items : XmlNode}

/-- Two calls succeed alike and leave the same tables. -/
def SameResult (r r' : IoParser × Except Exn Unit) : Prop :=
  (r.2 = .ok () ↔ r'.2 = .ok ()) ∧ r.1.toTables = r'.1.toTables

theorem reload_not_missing_iff (hdoc : readDocument parse fs (target p.filepath q) = some doc) :
    (∀ name, (p.reload parse fs q).2 ≠ .error (nodeNotFound name)) ↔
      ∃ drvs items, Layout doc drvs items := by
  rw [← extract_not_missing_iff, IoParser.reload_outcome hdoc]
  refine forall_congr' fun name => not_congr ?_
  cases extract doc <;> simp [Except.map]

/-- Exchanging the sections goes unnoticed exactly when an attribute in them makes
the document unloadable in either order. -/
theorem exchange_sameResult_iff (hdoc : readDocument parse fs (target p.filepath q) = some doc)
    (hdoc' : readDocument parse fs' (target p.filepath q) = some doc')
    (hx : Exchanged doc doc' drvs items) :
    SameResult (p.reload parse fs q) (p.reload parse fs' q) ↔ ¬ EntriesReadable drvs items := by
  have hok := (IoParser.reload_ok_iff hdoc).trans (exists_tablesOf_iff doc)
  have hok' := (IoParser.reload_ok_iff hdoc').trans (exists_tablesOf_iff doc')
  have hrejected : ∀ {d}, (¬ ∃ drvs items, Layout d drvs items) → ¬ Accepted d := by
    rintro d hno ⟨drvs, items, hlayout, -⟩
    exact hno ⟨drvs, items, hlayout⟩
  have hsame : ¬ Accepted doc → ¬ Accepted doc' →
      SameResult (p.reload parse fs q) (p.reload parse fs' q) := fun h h' =>
    ⟨iff_of_false (mt hok.mp h) (mt hok'.mp h'), (IoParser.reload_failed_tables (mt hok.mp h)).trans
      (IoParser.reload_failed_tables (mt hok'.mp h')).symm⟩
  rcases hx.layout with ⟨hlayout, hno⟩ | ⟨hlayout, hno⟩
  · rw [← hlayout.accepted_iff]
    constructor
    · intro h hacc
      exact hrejected hno (hok'.mp (h.1.mp (hok.mpr hacc)))
    · intro h
      exact hsame h (hrejected hno)
  · rw [← hlayout.accepted_iff]
    constructor
    · intro h hacc
      exact hrejected hno (hok.mp (h.1.mpr (hok'.mpr hacc)))
    · intro h
      exact hsame (hrejected hno) h

end Reload

/-- No call that reads the document reports a section as missing unless one is,
and exchanging its two sections, when there are no others, goes unnoticed. -/
def LocatesSections (doc : List XmlNode) : Prop :=
  ∀ parse fs q p, readDocument parse fs (target p.filepath q) = some doc →
    (HasSections doc → ∀ name, (IoParser.reload parse fs q p).2 ≠ .error (nodeNotFound name)) ∧
    ∀ fs' doc' drvs items, readDocument parse fs' (target p.filepath q) = some doc' →
      Exchanged doc doc' drvs items →
      SameResult (IoParser.reload parse fs q p) (IoParser.reload parse fs' q p)

/-- An `ITEMS` stands behind the first `DRIVERS`, or one of them is missing; and a
document with one section of each kind is unloadable in either order. -/
def OrderIndependent (doc : List XmlNode) : Prop :=
  (HasSections doc → ∃ drvs items, Layout doc drvs items) ∧
    ∀ doc' drvs items, Exchanged doc doc' drvs items → ¬ EntriesReadable drvs items

/-- The sections are located whatever their order exactly on the documents whose
order does not matter. -/
theorem locatesSections_iff (doc : List XmlNode) :
    LocatesSections doc ↔ OrderIndependent doc := by
  constructor
  · intro h
    constructor
    · intro hboth
      have hdoc := readDocument_written doc ({} : IoParser).filepath
      exact (reload_not_missing_iff hdoc).mp ((h _ _ _ {} hdoc).1 hboth)
    · intro doc' drvs items hx
      obtain ⟨parse, fs, fs', q, hread⟩ := exists_reading doc doc'
      obtain ⟨hdoc, hdoc'⟩ := hread ({} : IoParser).filepath
      exact (exchange_sameResult_iff hdoc hdoc' hx).mp
        ((h parse fs q {} hdoc).2 fs' doc' drvs items hdoc' hx)
  · rintro ⟨hbehind, hunreadable⟩ parse fs q p hdoc
    constructor
    · intro hboth
      exact (reload_not_missing_iff hdoc).mpr (hbehind hboth)
    · intro fs' doc' drvs items hdoc' hx
      exact (exchange_sameResult_iff hdoc hdoc' hx).mpr (hunreadable doc' drvs items hx)

/-- A document with an empty `ITEMS` in front of an empty `DRIVERS`. -/
def itemsFirstConf : List UInt8 := "<IODEF><ITEMS/><DRIVERS/></IODEF>".toUTF8.data.toList

def itemsFirstNodes : List XmlNode :=
  [⟨rootNodeK, [], [⟨itemsNodeK, [], []⟩, ⟨drvsNodeK, [], []⟩]⟩]

/-- Its `ITEMS` is reported missing. -/
theorem itemsFirst_not_locatesSections : ¬ LocatesSections itemsFirstNodes := by
  intro h
  have hboth : HasSections itemsFirstNodes :=
    ⟨_, ⟨[], [], rfl, rfl, by simp⟩, ⟨⟨drvsNodeK, [], []⟩, by simp, rfl⟩,
      ⟨itemsNodeK, [], []⟩, by simp, rfl⟩
  have hmissing := (h (parseTable [(itemsFirstConf, itemsFirstNodes)])
    (.ofFiles [(lit "conf.xml", itemsFirstConf)]) (lit "conf.xml") {} rfl).1 hboth itemsNodeK
  exact hmissing (by decide +kernel)

end IoEmulator.Conf
