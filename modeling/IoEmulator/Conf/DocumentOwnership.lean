import IoEmulator.Conf.ReloadRuns

/-!
# Documents and the buffers they point into

Parsing is done in place, so a document is usable only while the buffer it was
parsed from is held. `reload` replaces the buffer before it parses, and keeps the
old document when that fails.
-/

namespace IoEmulator.Conf

open Foundation.StepRuns

/-- The buffer that the file at a path is loaded into, if it can be loaded. -/
def readBuffer (fs : FileSystem) (path : Text) : Option (List UInt8) :=
  match fs.isRegularFile path with
  | .ok true => (makeBuffer fs path).toOption
  | _ => none

namespace BasicParser

variable (parse : XmlParse)

/-- A call of `basic_parser::reload`, returning or throwing. -/
def step (p : BasicParser) (call : ReloadCall) : BasicParser :=
  (p.reload parse call.fs call.filepath).1

/-- The document is null or was parsed from the buffer that is held. -/
def OwnsDocument (p : BasicParser) : Prop :=
  ∀ doc, p.xmldoc = some doc →
    doc.source = p.buffer.load ∧ parse p.buffer.bytes = .ok doc.nodes

/-- A call that replaces the buffer replaces the document as well, or there is
none to replace. -/
def ReplacesBoth (p : BasicParser) (call : ReloadCall) : Prop :=
  ∀ bytes, readBuffer call.fs (target p.filepath call.filepath) = some bytes →
    p.xmldoc = none ∨ ∃ nodes, parse bytes = .ok nodes

/-- Everything a call can do to the buffer and the document: keep both, replace
the buffer only, or replace both. -/
theorem step_cases (p : BasicParser) (call : ReloadCall) :
    (readBuffer call.fs (target p.filepath call.filepath) = none ∧ p.step parse call = p) ∨
    ∃ bytes, readBuffer call.fs (target p.filepath call.filepath) = some bytes ∧
      (p.step parse call).buffer = ⟨p.loads, bytes⟩ ∧
      (p.step parse call).loads = p.loads + 1 ∧
      ((∃ e, parse bytes = .error e ∧ (p.step parse call).xmldoc = p.xmldoc) ∨
        ∃ nodes, parse bytes = .ok nodes ∧
          (p.step parse call).xmldoc = some ⟨p.loads, nodes⟩) := by
  rcases choosePath_cases call.fs p.filepath call.filepath with ⟨hreg, hpath⟩ | ⟨hreg, e, hpath⟩
  · cases hbuf : makeBuffer call.fs (target p.filepath call.filepath) with
    | error e =>
        left
        exact ⟨by simp [readBuffer, hreg, hbuf, Except.toOption],
          by simp [step, BasicParser.reload, hpath, hbuf]⟩
    | ok bytes =>
        right
        refine ⟨bytes, by simp [readBuffer, hreg, hbuf, Except.toOption], ?_⟩
        cases hdoc : parse bytes with
        | error e =>
            simp [step, BasicParser.reload, hpath, hbuf, makeXmldoc, hdoc, Except.map]
        | ok nodes =>
            simp only [step, BasicParser.reload, hpath, hbuf, makeXmldoc, hdoc, Except.map]
            split <;> simp
  · left
    refine ⟨?_, by simp [step, BasicParser.reload, hpath]⟩
    unfold readBuffer
    split
    · exact absurd ‹_› hreg
    · rfl

/-- Documents are numbered below the next load. -/
def Numbered (p : BasicParser) : Prop := ∀ doc, p.xmldoc = some doc → doc.source < p.loads

theorem Numbered.step {p : BasicParser} (h : p.Numbered) (call : ReloadCall) :
    (p.step parse call).Numbered := by
  rcases p.step_cases parse call with
    ⟨-, hsame⟩ | ⟨bytes, -, -, hloads, ⟨e, -, hkept⟩ | ⟨nodes, -, hnew⟩⟩
  · rwa [hsame]
  · intro doc hdoc
    rw [hkept] at hdoc
    rw [hloads]
    exact Nat.lt_succ_of_lt (h doc hdoc)
  · intro doc hdoc
    obtain rfl := Option.some.inj (hnew.symm.trans hdoc)
    rw [hloads]
    exact Nat.lt_succ_self _

/-- A call keeps the ownership exactly when it replaces both members or neither. -/
theorem ownsDocument_step_iff {p : BasicParser} (hnum : p.Numbered) (hown : p.OwnsDocument parse)
    (call : ReloadCall) :
    (p.step parse call).OwnsDocument parse ↔ p.ReplacesBoth parse call := by
  rcases p.step_cases parse call with
    ⟨hnone, hsame⟩ | ⟨bytes, hbytes, hbuffer, -, ⟨e, hparse, hkept⟩ | ⟨nodes, hparse, hnew⟩⟩
  · rw [hsame]
    exact iff_of_true hown fun bytes hbytes => by simp [hnone] at hbytes
  · have hboth : p.ReplacesBoth parse call ↔ p.xmldoc = none := by
      simp [ReplacesBoth, hbytes, hparse]
    rw [hboth, OwnsDocument, hkept, hbuffer]
    constructor
    · intro h
      cases hdoc : p.xmldoc with
      | none => rfl
      | some doc =>
          -- The kept document is older than the buffer just made.
          have hstale : doc.source = p.loads := (h doc hdoc).1
          have := hnum doc hdoc
          omega
    · intro hnone doc hdoc
      simp [hnone] at hdoc
  · refine iff_of_true ?_ fun bytes' hbytes' => ?_
    · intro doc hdoc
      obtain rfl := Option.some.inj (hnew.symm.trans hdoc)
      rw [hbuffer]
      exact ⟨rfl, hparse⟩
    · obtain rfl := Option.some.inj (hbytes.symm.trans hbytes')
      exact Or.inr ⟨nodes, hparse⟩

/-- Over every run of calls on a parser without a document, whatever its path: the
document belongs to the buffer after every call exactly when no call replaces
the buffer under a document that stays. -/
theorem ownsDocument_throughout_iff (path : Text) (calls : List ReloadCall) :
    (∀ before after, calls = before ++ after →
      (before.foldl (step parse) { filepath := path }).OwnsDocument parse) ↔
    AllSteps (step parse) (fun p call => p.ReplacesBoth parse call) { filepath := path } calls := by
  apply throughout_iff_allSteps (J := Numbered)
  · exact fun p call h => h.step parse call
  · exact fun p call hnum hown => ownsDocument_step_iff parse hnum hown call
  · intro doc hdoc
    simp at hdoc
  · intro doc hdoc
    simp at hdoc

/-- A file that is no XML document. -/
def brokenConf : List UInt8 := "IODEF".toUTF8.data.toList

/-- Loading a document and then that file leaves the document of a buffer that is
gone. -/
theorem broken_not_ownsDocument : ¬ ([⟨Tracked.sampleFs, lit "conf.xml"⟩,
    ⟨.ofFiles [(lit "broken.xml", brokenConf)], lit "broken.xml"⟩].foldl
      (step Tracked.sampleParse) {}).OwnsDocument Tracked.sampleParse := by
  have hstale : ([⟨Tracked.sampleFs, lit "conf.xml"⟩,
      ⟨.ofFiles [(lit "broken.xml", brokenConf)], lit "broken.xml"⟩].foldl
        (step Tracked.sampleParse) {}).xmldoc.map XmlDoc.source = some 0 := by decide +kernel
  have hbuffer : ([⟨Tracked.sampleFs, lit "conf.xml"⟩,
      ⟨.ofFiles [(lit "broken.xml", brokenConf)], lit "broken.xml"⟩].foldl
        (step Tracked.sampleParse) {}).buffer.load = 1 := by decide +kernel
  intro h
  obtain ⟨doc, hdoc, hsource⟩ := Option.map_eq_some_iff.mp hstale
  have hown := (h doc hdoc).1
  rw [hsource, hbuffer] at hown
  exact absurd hown (by decide)

end BasicParser

end IoEmulator.Conf
