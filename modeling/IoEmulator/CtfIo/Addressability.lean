import IoEmulator.CtfIo.StoreSemantics
import IoEmulator.CtfIo.Commands
import IoEmulator.Conf.ReloadRuns
import IoEmulator.Termctl.CommandLoop

/-!
# From the completed line to the item

Completion inserts an item name as it stands, and the command loop splits the
line at whitespace. The names that survive are those without whitespace.
-/

namespace IoEmulator.CtfIo

open Conf.Tracked (sampleParse sampleFs sampleConfNodes sample_reload)
open Conf Termctl Foundation.FirstWinsMap Foundation.Enumeration Foundation.Words

variable {σ F : Type}

/-- Every name that completion offers for `get` reaches the command as its only
argument, where it finds the item of that name. -/
def Addressable (P : Platform σ F) (order : IterationOrder Text) (parser : IoParser) : Prop :=
  ∀ text, text ≠ [] → ∃ found, (makeGetCommand P order parser).Enumerates text found ∧
    ∀ c ∈ found, Shell.splitLine (lit "get" ++ [space] ++ c) = (lit "get", [c]) ∧
      ∃ item, parser.findItem c = some item ∧ item.name = c

/-- The line of a get command splits into `get` and the words of the rest. -/
theorem splitLine_get (c : Text) :
    Shell.splitLine (lit "get" ++ [space] ++ c) = (lit "get", words isspace c) := by
  have hrun : ∀ ch ∈ lit "get", isspace ch = false := isspace_eq_false_of_all rfl
  have h : words isspace (lit "get" ++ space :: c) = lit "get" :: words isspace c := by
    rw [words_append_cons isspace hrun isspace_space]
    rfl
  rw [Shell.splitLine_eq, List.append_assoc, List.singleton_append, h]
  rfl

section Document

variable (parse : XmlParse) (P : Platform σ F) (order : IterationOrder Text)

/-- On the parser a reload leaves, every candidate of get can be addressed exactly
when no item entry of the document has whitespace in its name. -/
theorem addressable_iff {fs : FileSystem} {q : Text} {p p' : IoParser} {nodes : List XmlNode}
    (hdoc : readDocument parse fs (target p.filepath q) = some nodes)
    (hok : p.reload parse fs q = (p', .ok ())) :
    Addressable P order p' ↔ ∀ drvs items, Sections nodes drvs items →
      ∀ node ∈ entries itemAttrK items, ∀ ch ∈ nodeGetAttr node (lit "name"),
        isspace ch = false := by
  have ht : TablesOf nodes p'.toTables := by
    simpa only [hok] using IoParser.tablesOf_reload hdoc (by rw [hok])
  have hmem : ∀ c, c ∈ (makeGetCommand P order p').params ↔ c ∈ p'.itemKeys := fun c =>
    BasicCommand.mem_params_make order _ _ _ c
  simp only [Addressable, BasicCommand.enumerates_iff, exists_eq_left, BasicCommand.mem_offers,
    splitLine_get, hmem]
  constructor
  · intro h drvs items hsec node hnode ch hch
    have hne : nodeGetAttr node (lit "name") ≠ [] := List.ne_nil_of_mem hch
    have hkey := (ht.mem_itemKeys _).mpr ⟨drvs, items, hsec, node, hnode, rfl⟩
    obtain ⟨hsplit, -⟩ := h _ hne _ ⟨hne, hkey, List.prefix_rfl⟩
    exact ((words_eq_self_iff isspace _).mp (Prod.mk.inj hsplit).2).2 ch hch
  · rintro h text htext c ⟨-, hc, hpre⟩
    obtain ⟨drvs, items, hsec, node, hnode, rfl⟩ := (ht.mem_itemKeys c).mp hc
    have hne : nodeGetAttr node (lit "name") ≠ [] := fun hnil => htext (by simpa [hnil] using hpre)
    have hwords := (words_eq_self_iff isspace _).mpr ⟨hne, h drvs items hsec node hnode⟩
    rw [ht.wellFormed.itemKeys, mem_keySet] at hc
    obtain ⟨item, hitem⟩ := Option.isSome_iff_exists.mp hc
    exact ⟨by rw [hwords], item, hitem, ht.wellFormed.items _ _ hitem⟩

/-- The item of the sample can be addressed. -/
theorem addressable_sample : ∃ p', IoParser.reload sampleParse sampleFs (lit "conf.xml") {} =
    (p', .ok ()) ∧ Addressable memoryPlatform (IterationOrder.latestFirst Text) p' := by
  have hdoc : readDocument sampleParse sampleFs (lit "conf.xml") = some sampleConfNodes := rfl
  refine ⟨_, Prod.ext rfl sample_reload, ?_⟩
  apply (addressable_iff sampleParse memoryPlatform (IterationOrder.latestFirst Text) hdoc
    (Prod.ext rfl sample_reload)).mpr
  intro drvs items hsec node hnode ch hch
  have hsample : Sections sampleConfNodes ⟨drvsNodeK, [], []⟩
      ⟨itemsNodeK, [], [⟨itemAttrK, [(lit "name", lit "a")], []⟩]⟩ :=
    ⟨_, _, _, rfl, rfl, rfl, rfl, rfl⟩
  obtain ⟨-, rfl⟩ := hsec.unique hsample
  obtain rfl := List.mem_singleton.mp (List.mem_filter.mp hnode).1
  obtain rfl : ch = ⟨97, by decide⟩ := List.mem_singleton.mp hch
  rfl

/-- A configuration whose item has a name of two words. -/
def spacedConf : List UInt8 :=
  "<IODEF><DRIVERS/><ITEMS><ITEM name='a b'/></ITEMS></IODEF>".toUTF8.data.toList

def spacedParse : XmlParse :=
  parseTable [(spacedConf, [⟨rootNodeK, [], [⟨drvsNodeK, [], []⟩,
    ⟨itemsNodeK, [], [⟨itemAttrK, [(lit "name", lit "a b")], []⟩]⟩]⟩])]

/-- That item is loaded and offered, but its line has two arguments. -/
theorem spaced_not_addressable : ∃ p', IoParser.reload spacedParse
    (.ofFiles [(lit "conf.xml", spacedConf)]) (lit "conf.xml") {} = (p', .ok ()) ∧
    ¬ Addressable memoryPlatform (IterationOrder.latestFirst Text) p' := by
  have hrun : (fun r : IoParser × Except Exn Unit => (r.2, decide (lit "a b" ∈ r.1.itemKeys)))
      (IoParser.reload spacedParse (.ofFiles [(lit "conf.xml", spacedConf)]) (lit "conf.xml") {}) =
      (.ok (), true) := by decide +kernel
  obtain ⟨hok, hkey⟩ := Prod.mk.inj hrun
  refine ⟨_, Prod.ext rfl hok, fun h => ?_⟩
  obtain ⟨found, hfound, hall⟩ := h (lit "a b") (by decide)
  rw [BasicCommand.enumerates_iff] at hfound
  have hoffered : lit "a b" ∈ found := by
    rw [hfound, BasicCommand.mem_offers]
    refine ⟨by decide, ?_, List.prefix_rfl⟩
    exact (BasicCommand.mem_params_make _ _ _ _ _).mpr (of_decide_eq_true hkey)
  have hsplit := (hall _ hoffered).1
  rw [splitLine_get] at hsplit
  exact absurd (congrArg Prod.snd hsplit) (by decide)

end Document

end IoEmulator.CtfIo
