import IoEmulator.Conf.BasicParser

/-!
# Documents as files

Every tree has a text, so every document can be met by a call: a file holds the
text, and a parser reads it as the tree. A comment in front of the text keeps
the files of two documents apart.

## Implementation notes

The values of data nodes are not modelled. A node without a name is written as an
empty `CDATA` section, which stays a node of its own between its siblings.
-/

namespace IoEmulator.Conf

/-- A character of a value between single quotes. -/
def escapeChar (c : CChar) : Text :=
  if c.1 = 38 then lit "&amp;"
  else if c.1 = 39 then lit "&apos;"
  else if c.1 = 60 then lit "&lt;"
  else [c]

def attributeText (a : Text × Text) : Text :=
  space :: a.1 ++ lit "='" ++ a.2.flatMap escapeChar ++ lit "'"

mutual

def nodeText : XmlNode → Text
  | ⟨[], _, _⟩ => lit "<![CDATA[]]>"
  | ⟨name, attributes, children⟩ =>
      lit "<" ++ name ++ attributes.flatMap attributeText ++ lit ">" ++ nodesText children ++
        lit "</" ++ name ++ lit ">"

def nodesText : List XmlNode → Text
  | [] => []
  | n :: rest => nodeText n ++ nodesText rest

end

/-- The bytes of a file with the comment and the document. -/
def confText (comment : Text) (doc : List XmlNode) : List UInt8 :=
  (lit "<!--" ++ (comment ++ lit "-->" ++ nodesText doc)).map Subtype.val

example : confText (lit "1") [⟨lit "IODEF", [(lit "v", lit "a'b")], [⟨[], [], []⟩]⟩] =
    "<!--1--><IODEF v='a&apos;b'><![CDATA[]]></IODEF>".toUTF8.data.toList := by decide +kernel

theorem confText_ne_nil (comment : Text) (doc : List XmlNode) : confText comment doc ≠ [] := by
  rw [confText, ne_eq, List.map_eq_nil_iff]
  exact List.append_ne_nil_of_left_ne_nil (by decide) _

theorem confText_ne (doc doc' : List XmlNode) :
    confText (lit "1") doc ≠ confText (lit "2") doc' := by
  intro h
  have htext := (List.map_inj_right fun x y => Subtype.ext).mp h
  exact absurd (List.cons.inj (List.append_cancel_left htext)).1 (by decide)

/-- A file that the parser knows is read as its document. -/
theorem readDocument_ofFiles {parse : XmlParse} {bytes : List UInt8} {doc : List XmlNode}
    (hne : bytes ≠ []) (hparse : parse (bytes ++ [0]) = .ok doc) (path : Text) :
    readDocument parse (.ofFiles [(path, bytes)]) path = some doc := by
  have hlen : bytes.length ≠ 0 := mt List.length_eq_zero_iff.mp hne
  simp [readDocument, FileSystem.ofFiles, makeBuffer, hlen, hparse, Except.toOption]

/-- A parser that knows the text of the document, and a file that holds it. -/
def writtenParse (doc : List XmlNode) : XmlParse := parseTable [(confText [] doc, doc)]

def writtenFs (doc : List XmlNode) : FileSystem :=
  .ofFiles [(lit "conf.xml", confText [] doc)]

theorem readDocument_written (doc : List XmlNode) (current : Text) :
    readDocument (writtenParse doc) (writtenFs doc) (target current (lit "conf.xml")) =
      some doc := by
  have hparse : writtenParse doc (confText [] doc ++ [0]) = .ok doc := by
    simp [writtenParse, parseTable]
  exact readDocument_ofFiles (confText_ne_nil [] doc) hparse (lit "conf.xml")

/-- Any two documents can be met by the same call in two file systems. -/
theorem exists_reading (doc doc' : List XmlNode) : ∃ parse fs fs' q, ∀ current,
    readDocument parse fs (target current q) = some doc ∧
      readDocument parse fs' (target current q) = some doc' := by
  have hparse : parseTable [(confText (lit "1") doc, doc), (confText (lit "2") doc', doc')]
      (confText (lit "1") doc ++ [0]) = .ok doc := by
    simp [parseTable]
  have hparse' : parseTable [(confText (lit "1") doc, doc), (confText (lit "2") doc', doc')]
      (confText (lit "2") doc' ++ [0]) = .ok doc' := by
    simp [parseTable, confText_ne]
  exact ⟨_, _, _, lit "conf.xml", fun _ =>
    ⟨readDocument_ofFiles (confText_ne_nil _ doc) hparse (lit "conf.xml"),
      readDocument_ofFiles (confText_ne_nil _ doc') hparse' (lit "conf.xml")⟩⟩

end IoEmulator.Conf
