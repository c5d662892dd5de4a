import IoEmulator.Conf.ReachableTables
import IoEmulator.Foundation.KeyedEdits

/-!
# Configurations that load alike

The order of entries with different keys does not matter, and an entry behind one
of its key is never seen. Two documents that load answer every lookup alike
exactly when such edits lead from the entries of one to those of the other.
-/

namespace IoEmulator.Conf

open Foundation.FirstWinsMap Foundation.KeyedEdits

/-- No lookup in the tables of the two parsers differs. -/
def LookUpAlike (p p' : IoParser) : Prop :=
  (∀ id, p.findDriver id = p'.findDriver id) ∧ ∀ name, p.findItem name = p'.findItem name

theorem findItem_of_tabulate {p : IoParser} {ds : List Driver} {is : List Item}
    (h : p.toTables = tabulate ds is) (name : Text) :
    p.findItem name = is.find? fun i => i.name = name := by
  rw [IoParser.findItem, congrArg Tables.items h]
  exact find_indexBy_empty Item.name is name

theorem findDriver_of_tabulate {p : IoParser} {ds : List Driver} {is : List Item}
    (h : p.toTables = tabulate ds is) (id : UInt32) :
    p.findDriver id = ds.find? fun d => d.key = id := by
  rw [IoParser.findDriver, congrArg Tables.drivers h]
  exact find_indexBy_empty Driver.key ds id

theorem lookUpAlike_tabulate_iff {p p' : IoParser} {ds ds' : List Driver} {is is' : List Item}
    (h : p.toTables = tabulate ds is) (h' : p'.toTables = tabulate ds' is') :
    LookUpAlike p p' ↔ Edits Driver.key ds ds' ∧ Edits Item.name is is' := by
  simp only [LookUpAlike, edits_iff_find?_eq, findItem_of_tabulate h, findItem_of_tabulate h',
    findDriver_of_tabulate h, findDriver_of_tabulate h']

section Reload

variable {parse parse' : XmlParse} {fs fs' : FileSystem} {q q' : Text} {p p' : IoParser}
  {doc doc' : List XmlNode} {ds ds' : List Driver} {is is' : List Item}

/-- Whatever the two parsers held before, loading the two documents leaves parsers
that answer alike exactly when edits connect the entries, section by section. -/
theorem reload_lookUpAlike_iff (h : Records doc ds is) (h' : Records doc' ds' is')
    (hdoc : readDocument parse fs (target p.filepath q) = some doc)
    (hdoc' : readDocument parse' fs' (target p'.filepath q') = some doc') :
    LookUpAlike (p.reload parse fs q).1 (p'.reload parse' fs' q').1 ↔
      Edits Driver.key ds ds' ∧ Edits Item.name is is' :=
  lookUpAlike_tabulate_iff (h.reload hdoc).2 (h'.reload hdoc').2

end Reload

def itemA : Item := ⟨.io, .intVal, -1, lit "a", lit "p", []⟩

def itemB : Item := ⟨.io, .intVal, -1, lit "b", lit "q", []⟩

/-- An item under a name that is taken. -/
def laterA : Item := ⟨.io, .doubleVal, 3, lit "a", lit "r", []⟩

theorem edits_laterA : Edits Item.name [itemA, itemB, laterA] [itemB, itemA] := by
  have hdrop : Edit Item.name ([itemA, itemB] ++ laterA :: []) ([itemA, itemB] ++ []) :=
    .drop [itemA, itemB] List.mem_cons_self (show itemA.name = laterA.name from rfl) []
  have hswap : Edit Item.name ([] ++ itemA :: itemB :: []) ([] ++ itemB :: itemA :: []) :=
    .swap (by decide) [] []
  exact (Relation.EqvGen.rel _ _ hdrop).trans _ _ _ (.rel _ _ hswap)

/-- Dropping the hidden item and exchanging the others goes unnoticed. -/
theorem reload_lookUpAlike_sample :
    LookUpAlike
      (IoParser.reload (writtenParse (confDocument [] [itemA, itemB, laterA]))
        (writtenFs (confDocument [] [itemA, itemB, laterA])) (lit "conf.xml") {}).1
      (IoParser.reload (writtenParse (confDocument [] [itemB, itemA]))
        (writtenFs (confDocument [] [itemB, itemA])) (lit "conf.xml") {}).1 :=
  (reload_lookUpAlike_iff (records_confDocument [] [itemA, itemB, laterA])
    (records_confDocument [] [itemB, itemA]) (readDocument_written _ _)
    (readDocument_written _ _)).mpr ⟨.refl _, edits_laterA⟩

end IoEmulator.Conf
