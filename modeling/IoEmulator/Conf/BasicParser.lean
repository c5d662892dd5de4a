import IoEmulator.Conf.Xml

/-!
# Reading a configuration file into a document

The state of `basic_parser`, its `make_buffer`, `make_xmldoc` and `reload`. A
call returns the state it leaves behind together with its outcome, because a
call that throws may already have replaced a member.

## Implementation notes

The file system and `rapidxml` are parameters. Buffers carry the number of the
load that made them and a document carries the number of the buffer it was
parsed from, so that a document outliving its buffer is visible. In-place
parsing changes the bytes of the buffer, but nothing reads them afterwards.
Paths are compared by `==` only with themselves or with the empty path, where
lexical comparison agrees with equality of texts.
-/

namespace IoEmulator.Conf

/-- An opened stream: what `tellg` reports at the end, and what `read` of that
many bytes delivers. -/
structure OpenFile where
  size : Int
  read : Option (List UInt8)

/-- The file system at the time of one call. `is_regular_file` may throw, and
opening fails with `none`. -/
structure FileSystem where
  isRegularFile : Text → Except Exn Bool
  openFile : Text → Option OpenFile

/-- `xml_document::parse<0>` on a zero-terminated buffer. -/
abbrev XmlParse := List UInt8 → Except Exn (List XmlNode)

structure XmlBuffer where
  load : Nat
  bytes : List UInt8

structure XmlDoc where
  source : Nat
  nodes : List XmlNode

/-- The members of `basic_parser`, with the number of buffers made so far. -/
structure BasicParser where
  filepath : Text := []
  buffer : XmlBuffer := ⟨0, []⟩
  xmldoc : Option XmlDoc := none
  loads : Nat := 0

/-- `make_buffer`: the file's bytes followed by a terminator. -/
def makeBuffer (fs : FileSystem) (filepath : Text) : Except Exn (List UInt8) :=
  match fs.openFile filepath with
  | none => .error (.runtimeError (lit "cannot open file: " ++ filepath))
  | some file =>
      if file.size ≤ 0 then .error (.runtimeError (lit "bad file: " ++ filepath))
      else
        match file.read with
        | none => .error (.runtimeError (lit "cannot read file: " ++ filepath))
        | some bytes => .ok (bytes ++ [0])

/-- `make_xmldoc`. -/
def makeXmldoc (parse : XmlParse) (buffer : XmlBuffer) : Except Exn XmlDoc :=
  (parse buffer.bytes).map fun nodes => ⟨buffer.load, nodes⟩

/-- The path a `reload` works on: the argument, or the current path when the
argument is empty, provided that it names a regular file. -/
def choosePath (fs : FileSystem) (current filepath : Text) : Except Exn Text :=
  if filepath = [] then
    match fs.isRegularFile current with
    | .error e => .error e
    | .ok true => .ok current
    | .ok false => .error (.runtimeError (lit "bad filepath"))
  else
    match fs.isRegularFile filepath with
    | .error e => .error e
    | .ok true => .ok filepath
    | .ok false => .error (.runtimeError (lit "invalid filepath: " ++ filepath))

/-- `basic_parser::reload`. The buffer is replaced before it is parsed, and the
path is stored last, only when it was given as the argument. -/
def BasicParser.reload (parse : XmlParse) (fs : FileSystem) (filepath : Text) (p : BasicParser) :
    BasicParser × Except Exn Unit :=
  match choosePath fs p.filepath filepath with
  | .error e => (p, .error e)
  | .ok path =>
      match makeBuffer fs path with
      | .error e => (p, .error e)
      | .ok bytes =>
          let p₁ := { p with buffer := ⟨p.loads, bytes⟩, loads := p.loads + 1 }
          match makeXmldoc parse p₁.buffer with
          | .error e => (p₁, .error e)
          | .ok doc =>
              let p₂ := { p₁ with xmldoc := some doc }
              if path = filepath then ({ p₂ with filepath := path }, .ok ()) else (p₂, .ok ())

/-- `basic_parser(const path &)`: a default object on which `reload(filepath)`
runs. Inside this constructor the virtual call is the one above. -/
def BasicParser.ofPath (parse : XmlParse) (fs : FileSystem) (filepath : Text) :
    Except Exn BasicParser :=
  let r := BasicParser.reload parse fs filepath {}
  r.2.map fun _ => r.1

/-- `basic_parser(path &&)`: the path is stored first and `reload()` runs
without an argument. -/
def BasicParser.ofMovedPath (parse : XmlParse) (fs : FileSystem) (filepath : Text) :
    Except Exn BasicParser :=
  let r := BasicParser.reload parse fs [] { filepath := filepath }
  r.2.map fun _ => r.1

/-- The file a `reload(filepath)` refers to when the current path is `current`. -/
def target (current filepath : Text) : Text := if filepath = [] then current else filepath

@[simp] theorem target_current (current : Text) : target current [] = current := if_pos rfl

@[simp] theorem target_unset (filepath : Text) : target [] filepath = filepath := by
  by_cases h : filepath = [] <;> simp [target, h]

/-- The document a regular, readable and well-formed file contains. -/
def readDocument (parse : XmlParse) (fs : FileSystem) (path : Text) : Option (List XmlNode) :=
  match fs.isRegularFile path with
  | .ok true =>
      match makeBuffer fs path with
      | .ok bytes => (parse bytes).toOption
      | .error _ => none
  | _ => none

/-- The file system that holds these regular files and nothing else. -/
def FileSystem.ofFiles (files : List (Text × List UInt8)) : FileSystem where
  isRegularFile path := .ok (files.lookup path).isSome
  openFile path := (files.lookup path).map fun bytes => ⟨bytes.length, some bytes⟩

/-- A parser that knows the trees of some documents and rejects all others. -/
def parseTable (docs : List (List UInt8 × List XmlNode)) : XmlParse := fun buffer =>
  match docs.find? fun d => d.1 ++ [0] = buffer with
  | some d => .ok d.2
  | none => .error (.parseError (lit "expected <"))

theorem choosePath_cases (fs : FileSystem) (current q : Text) :
    (fs.isRegularFile (target current q) = .ok true ∧
        choosePath fs current q = .ok (target current q)) ∨
      (fs.isRegularFile (target current q) ≠ .ok true ∧
        ∃ e, choosePath fs current q = .error e) := by
  by_cases hq : q = []
  · rw [target, if_pos hq, choosePath, if_pos hq]
    rcases fs.isRegularFile current with e | (_ | _) <;> simp
  · rw [target, if_neg hq, choosePath, if_neg hq]
    rcases fs.isRegularFile q with e | (_ | _) <;> simp

/-- How a call ends, the path it leaves and the document it has read depend on the
current path only. -/
theorem BasicParser.reload_congr (parse : XmlParse) (fs : FileSystem) (q : Text)
    {p p' : BasicParser} (h : p.filepath = p'.filepath) :
    (p.reload parse fs q).2 = (p'.reload parse fs q).2 ∧
      (p.reload parse fs q).1.filepath = (p'.reload parse fs q).1.filepath ∧
      ((p.reload parse fs q).2 = .ok () → (p.reload parse fs q).1.xmldoc.map XmlDoc.nodes =
        (p'.reload parse fs q).1.xmldoc.map XmlDoc.nodes) := by
  simp only [BasicParser.reload, h]
  cases choosePath fs p'.filepath q with
  | error e => simp [h]
  | ok path =>
      simp only
      cases makeBuffer fs path with
      | error e => simp [h]
      | ok bytes =>
          simp only [makeXmldoc]
          cases parse bytes with
          | error e => simp [Except.map]
          | ok nodes => by_cases hq : path = q <;> simp [hq, Except.map]

/-- Everything a call can do: either its target holds no document, and it throws
with the path unchanged, or it reads the document of its target and stores that
path and that document. -/
theorem BasicParser.reload_cases (parse : XmlParse) (fs : FileSystem) (q : Text)
    (p : BasicParser) :
    (readDocument parse fs (target p.filepath q) = none ∧
      ∃ p' e, p.reload parse fs q = (p', .error e) ∧ p'.filepath = p.filepath) ∨
    (∃ nodes p' source, readDocument parse fs (target p.filepath q) = some nodes ∧
      p.reload parse fs q = (p', .ok ()) ∧ p'.filepath = target p.filepath q ∧
      p'.xmldoc = some ⟨source, nodes⟩) := by
  rcases choosePath_cases fs p.filepath q with ⟨hreg, hpath⟩ | ⟨hreg, e, hpath⟩
  · cases hbuf : makeBuffer fs (target p.filepath q) with
    | error e => exact Or.inl ⟨by simp [readDocument, hreg, hbuf],
        p, e, by simp [BasicParser.reload, hpath, hbuf], rfl⟩
    | ok bytes =>
        cases hdoc : parse bytes with
        | error e =>
            exact Or.inl ⟨by simp [readDocument, hreg, hbuf, hdoc, Except.toOption],
              { p with buffer := ⟨p.loads, bytes⟩, loads := p.loads + 1 }, e,
              by simp [BasicParser.reload, hpath, hbuf, makeXmldoc, hdoc, Except.map], rfl⟩
        | ok nodes =>
            refine Or.inr ⟨nodes, (p.reload parse fs q).1, p.loads, ?_, ?_, ?_, ?_⟩
            · simp [readDocument, hreg, hbuf, hdoc, Except.toOption]
            all_goals
              simp only [BasicParser.reload, hpath, hbuf, makeXmldoc, hdoc, Except.map]
              by_cases hq : target p.filepath q = q
              · simp [hq]
              · have hnil : q = [] := by
                  by_contra hne
                  exact hq (if_neg hne)
                subst hnil
                have hne : p.filepath ≠ [] := by simpa [target] using hq
                simp [target, hne]
  · refine Or.inl ⟨?_, p, e, by simp [BasicParser.reload, hpath], rfl⟩
    unfold readDocument
    split
    · exact absurd ‹_› hreg
    · rfl

end IoEmulator.Conf
