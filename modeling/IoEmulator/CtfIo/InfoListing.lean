import IoEmulator.CtfIo.Perform
import IoEmulator.Conf.Extraction
import IoEmulator.Conf.ReloadRuns

/-!
# The full listing and the single infos

`info all` prints every stored item. The info of any other name prints the item
of that name, so the listing is the sum of these infos and of the item that the
keyword hides, if there is one.
-/

namespace IoEmulator.CtfIo

open Conf Foundation.FirstWinsMap Foundation.KeySets Foundation.Enumeration

variable {σ : Type}

/-- The item of a call of `pretty_print`. -/
def Report.item? : Report → Option Item
  | .info item => some item
  | _ => none

/-- The items that a command prints. -/
def Performed.items (r : Performed σ) : Multiset Item := ↑(r.printed.filterMap Report.item?)

theorem filterMap_item?_info (l : List Item) :
    (l.map Report.info).filterMap Report.item? = l := by
  rw [List.filterMap_map]
  exact List.filterMap_some

section Listing

variable (order : IterationOrder Text) (parser : IoParser) (io : σ)

/-- The items that an info prints. -/
def infoItems (args : List Text) : Multiset Item :=
  (performCommandInfo order args parser io).items

/-- The full listing is the sum of the single infos, each of which prints the one
item that `find_item` returns. -/
def ListingIsSum : Prop :=
  infoItems order parser io [lit "all"] =
      ∑ n ∈ parser.itemKeys.toFinset, infoItems order parser io [n] ∧
    ∀ n ∈ parser.itemKeys, ∃ item, parser.findItem n = some item ∧
      infoItems order parser io [n] = {item}

theorem infoItems_all : infoItems order parser io [lit "all"] =
    ∑ n ∈ (keySet parser.items).toFinset, (↑(parser.findItem n).toList : Multiset Item) := by
  rw [← order.coe_filterMap_arrange]
  simp only [infoItems, Performed.items, performCommandInfo, if_pos, filterMap_item?_info]

/-- The full listing has every item that `find_item` finds, and no other. -/
theorem mem_infoItems_all (item : Item) : item ∈ infoItems order parser io [lit "all"] ↔
    ∃ n, parser.findItem n = some item := by
  simp only [infoItems_all, Multiset.mem_sum, Multiset.mem_coe, Option.mem_toList]
  constructor
  · rintro ⟨n, -, hn⟩
    exact ⟨n, hn⟩
  · rintro ⟨n, hn⟩
    refine ⟨n, ?_, hn⟩
    rw [KeySet.mem_toFinset, mem_keySet, ← IoParser.findItem, hn, Option.isSome_some]

/-- The info of a name other than the keyword prints the item of that name. -/
theorem infoItems_name {n : Text} (hn : n ≠ lit "all") :
    infoItems order parser io [n] = ↑(parser.findItem n).toList := by
  simp only [infoItems, Performed.items, performCommandInfo, if_neg hn]
  cases parser.findItem n <;> rfl

theorem findItem_eq_none (hkeys : parser.itemKeys = keySet parser.items) {n : Text}
    (hn : n ∉ parser.itemKeys) : parser.findItem n = none := by
  rw [hkeys, mem_keySet] at hn
  simpa [IoParser.findItem] using hn

/-- The listing with the item that is named by the keyword, if any, apart. -/
theorem infoItems_all_eq_erase (hkeys : parser.itemKeys = keySet parser.items) :
    infoItems order parser io [lit "all"] =
      ∑ n ∈ parser.itemKeys.toFinset.erase (lit "all"), infoItems order parser io [n] +
        ↑(parser.findItem (lit "all")).toList := by
  have hname : ∀ n ∈ parser.itemKeys.toFinset.erase (lit "all"),
      infoItems order parser io [n] = ↑(parser.findItem n).toList := fun n hn =>
    infoItems_name order parser io (Finset.ne_of_mem_erase hn)
  by_cases hall : lit "all" ∈ parser.itemKeys
  · calc
      infoItems order parser io [lit "all"] =
          ∑ n ∈ parser.itemKeys.toFinset, (↑(parser.findItem n).toList : Multiset Item) := by
        rw [infoItems_all, hkeys]
      _ = ∑ n ∈ parser.itemKeys.toFinset.erase (lit "all"),
            (↑(parser.findItem n).toList : Multiset Item) +
          ↑(parser.findItem (lit "all")).toList := (Finset.sum_erase_add _ _ hall).symm
      _ = _ := by rw [Finset.sum_congr rfl hname]
  · rw [Finset.sum_congr rfl hname, Finset.erase_eq_of_notMem hall, infoItems_all, ← hkeys,
      findItem_eq_none parser hkeys hall]
    simp

/-- The info of a key other than the keyword prints the item that is found. -/
theorem infoItems_key (hkeys : parser.itemKeys = keySet parser.items) {n : Text}
    (hn : n ∈ parser.itemKeys) (hne : n ≠ lit "all") :
    ∃ item, parser.findItem n = some item ∧ infoItems order parser io [n] = {item} := by
  rw [hkeys, mem_keySet] at hn
  obtain ⟨item, hitem⟩ := Option.isSome_iff_exists.mp hn
  refine ⟨item, hitem, ?_⟩
  rw [infoItems_name order parser io hne, IoParser.findItem, hitem]
  rfl

/-- On the parser that a reload leaves, the full listing is the sum of the single
infos of the names other than the keyword, each of which prints the one item that
`find_item` returns, and of the item that is named by the keyword. Without such an
item it is the sum of all single infos. -/
theorem info_all_eq_sum {parse : XmlParse} {fs : FileSystem} {q : Text} {p p' : IoParser}
    (hok : p.reload parse fs q = (p', .ok ())) :
    infoItems order p' io [lit "all"] =
        ∑ n ∈ p'.itemKeys.toFinset.erase (lit "all"), infoItems order p' io [n] +
          ↑(p'.findItem (lit "all")).toList ∧
      (∀ n ∈ p'.itemKeys, n ≠ lit "all" → ∃ item, p'.findItem n = some item ∧
        infoItems order p' io [n] = {item}) ∧
      (lit "all" ∉ p'.itemKeys → ListingIsSum order p' io) := by
  have hwf : p'.toTables.WellFormed := by
    simpa only [hok] using IoParser.wellFormed_of_reload (congrArg Prod.snd hok)
  have hkeys := hwf.itemKeys
  have hsum := infoItems_all_eq_erase order p' io hkeys
  have hsingle := fun n hn => infoItems_key order p' io (n := n) hkeys hn
  refine ⟨hsum, hsingle, fun hall => ⟨?_, fun n hn => ?_⟩⟩
  · rw [hsum, Finset.erase_eq_of_notMem hall, findItem_eq_none p' hkeys hall]
    simp
  · exact hsingle n hn fun heq => hall (heq ▸ hn)

end Listing

section Sample

/-- A configuration with an item named by the keyword and another one. -/
def keywordConf : List UInt8 :=
  "<IODEF><DRIVERS/><ITEMS><ITEM name='all'/><ITEM name='a'/></ITEMS></IODEF>".toUTF8.data.toList

def keywordParse : XmlParse :=
  parseTable [(keywordConf, [⟨rootNodeK, [], [⟨drvsNodeK, [], []⟩,
    ⟨itemsNodeK, [], [⟨itemAttrK, [(lit "name", lit "all")], []⟩,
      ⟨itemAttrK, [(lit "name", lit "a")], []⟩]⟩]⟩])]

/-- What loading it leads to. -/
def keywordLoad : IoParser × Except Exn Unit :=
  IoParser.reload keywordParse (.ofFiles [(lit "conf.xml", keywordConf)]) (lit "conf.xml") {}

theorem keywordLoad_ok : keywordLoad = (keywordLoad.1, .ok ()) :=
  Prod.ext rfl (by decide +kernel : keywordLoad.2 = .ok ())

/-- Its listing is the info of the one item and the item that the keyword hides. -/
theorem info_all_eq_sum_keyword :
    infoItems (IterationOrder.latestFirst Text) keywordLoad.1 () [lit "all"] =
      infoItems (IterationOrder.latestFirst Text) keywordLoad.1 () [lit "a"] +
        ↑(keywordLoad.1.findItem (lit "all")).toList := by
  have hkeys : keywordLoad.1.itemKeys.toFinset.erase (lit "all") = {lit "a"} := by decide +kernel
  have hsum := (info_all_eq_sum (IterationOrder.latestFirst Text) () keywordLoad_ok).1
  rwa [hkeys, Finset.sum_singleton] at hsum

/-- It is loaded, but the info of the keyword prints both items. -/
theorem keyword_not_listingIsSum : ∃ p', IoParser.reload keywordParse
    (.ofFiles [(lit "conf.xml", keywordConf)]) (lit "conf.xml") {} = (p', .ok ()) ∧
    ¬ ListingIsSum (IterationOrder.latestFirst Text) p' () := by
  have hrun : (fun r : IoParser × Except Exn Unit => (r.2, (r.1.findItem (lit "all")).map Item.name,
      (r.1.findItem (lit "a")).map Item.name))
      (IoParser.reload keywordParse (.ofFiles [(lit "conf.xml", keywordConf)]) (lit "conf.xml")
        {}) = (.ok (), some (lit "all"), some (lit "a")) := by decide +kernel
  generalize hreload : IoParser.reload keywordParse (.ofFiles [(lit "conf.xml", keywordConf)])
    (lit "conf.xml") {} = r at hrun ⊢
  obtain ⟨p', out⟩ := r
  obtain ⟨rfl, hnames⟩ := Prod.mk.inj hrun
  obtain ⟨hall, ha⟩ := Prod.mk.inj hnames
  obtain ⟨itemAll, hfindAll, hnameAll⟩ := Option.map_eq_some_iff.mp hall
  obtain ⟨itemA, hfindA, hnameA⟩ := Option.map_eq_some_iff.mp ha
  refine ⟨p', rfl, ?_⟩
  rintro ⟨-, hone⟩
  have hwf : p'.toTables.WellFormed := by
    simpa only [hreload] using IoParser.wellFormed_of_reload (congrArg Prod.snd hreload)
  have hkey : lit "all" ∈ p'.itemKeys := by
    rw [hwf.itemKeys, mem_keySet, ← IoParser.findItem, hfindAll, Option.isSome_some]
  obtain ⟨item, -, hitems⟩ := hone _ hkey
  have hmem := mem_infoItems_all (IterationOrder.latestFirst Text) p' ()
  have hmemAll := (hmem itemAll).mpr ⟨_, hfindAll⟩
  have hmemA := (hmem itemA).mpr ⟨_, hfindA⟩
  rw [hitems, Multiset.mem_singleton] at hmemAll hmemA
  rw [hmemA, ← hmemAll, hnameAll] at hnameA
  exact absurd hnameA (by decide)

end Sample

end IoEmulator.CtfIo
