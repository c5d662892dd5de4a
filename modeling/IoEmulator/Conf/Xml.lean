import IoEmulator.Text

/-!
# The document tree and its navigation

The tree is what `rapidxml` delivers: element names, attributes in document
order with repetitions, and children in document order. Data nodes are nodes
with an empty name.

## Implementation notes

A node pointer is a node together with its later siblings, which is all that
`next_sibling` can reach. Node values and parent links are not modelled, since
the loader never reads them.
-/

namespace IoEmulator.Conf

structure XmlNode where
  name : Text
  attributes : List (Text × Text)
  children : List XmlNode

/-- A pointer into a sibling list. -/
structure NodePtr where
  node : XmlNode
  later : List XmlNode

/-- `first_node(name)` on the children of a node or of the document. -/
def firstNode (name : Text) : List XmlNode → Option NodePtr
  | [] => none
  | n :: rest => if n.name = name then some ⟨n, rest⟩ else firstNode name rest

/-- A search finds the first node of that name, with everything behind it. -/
theorem firstNode_eq_some_iff (name : Text) (l : List XmlNode) (p : NodePtr) :
    firstNode name l = some p ↔
      ∃ before, l = before ++ p.node :: p.later ∧ p.node.name = name ∧
        ∀ n ∈ before, n.name ≠ name := by
  induction l with
  | nil => simp [firstNode]
  | cons n rest ih =>
      by_cases hn : n.name = name
      · simp only [firstNode, if_pos hn, Option.some.injEq]
        constructor
        · rintro rfl
          exact ⟨[], rfl, hn, by simp⟩
        · rintro ⟨before, hl, -, hbefore⟩
          cases before with
          | nil =>
              obtain ⟨rfl, rfl⟩ := List.cons.inj hl
              rfl
          | cons m before =>
              obtain ⟨rfl, -⟩ := List.cons.inj hl
              exact absurd hn (hbefore n List.mem_cons_self)
      · simp only [firstNode, if_neg hn, ih]
        constructor
        · rintro ⟨before, rfl, hname, hbefore⟩
          exact ⟨n :: before, rfl, hname, List.forall_mem_cons.mpr ⟨hn, hbefore⟩⟩
        · rintro ⟨before, hl, hname, hbefore⟩
          cases before with
          | nil =>
              obtain ⟨rfl, -⟩ := List.cons.inj hl
              exact absurd hname hn
          | cons m before =>
              obtain ⟨rfl, rfl⟩ := List.cons.inj hl
              exact ⟨before, rfl, hname, (List.forall_mem_cons.mp hbefore).2⟩

theorem firstNode_eq_none_iff (name : Text) (l : List XmlNode) :
    firstNode name l = none ↔ ∀ n ∈ l, n.name ≠ name := by
  induction l with
  | nil => simp [firstNode]
  | cons n rest ih =>
      by_cases hn : n.name = name
      · simp [firstNode, hn]
      · simp [firstNode, hn, ih]

/-- `next_sibling(name)`. -/
def nextSibling (name : Text) (p : NodePtr) : Option NodePtr := firstNode name p.later

/-- `first_attribute(name)`, read as its value. -/
def firstAttribute (name : Text) (n : XmlNode) : Option Text :=
  (n.attributes.find? fun a => a.1 = name).map Prod.snd

/-- The nodes a loop from `first_node(name)` along unnamed `next_sibling()` visits. -/
def siblingsFrom (name : Text) (parent : XmlNode) : List XmlNode :=
  match firstNode name parent.children with
  | none => []
  | some p => p.node :: p.later

/-- Filtering the visited siblings by name gives every child of that name: the
loop starts at the first of them. -/
theorem filter_siblingsFrom (name : Text) (parent : XmlNode) :
    (siblingsFrom name parent).filter (fun n => n.name = name) =
      parent.children.filter fun n => n.name = name := by
  unfold siblingsFrom
  induction parent.children with
  | nil => rfl
  | cons n rest ih =>
      by_cases hn : n.name = name
      · simp [firstNode, hn]
      · rw [List.filter_cons_of_neg (by simpa using hn), ← ih]
        simp [firstNode, hn]

end IoEmulator.Conf
