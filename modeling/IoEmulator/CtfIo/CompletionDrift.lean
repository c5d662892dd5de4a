import IoEmulator.CtfIo.Commands
import IoEmulator.CtfIo.StoreSemantics
import IoEmulator.Conf.Construction
import Mathlib.Logic.Function.Basic

/-!
# Parameter completion and later reloads

The get, set and info commands execute on the shared parser but complete over
the item keys it had when they were made. Reloads, completion calls and
executions in any order keep the two in step exactly as long as every document
loaded has the item names of that moment.
-/

namespace IoEmulator.CtfIo

open Conf.Tracked (sampleParse sampleFs)
open Conf Termctl Foundation.FirstWinsMap Foundation.KeySets Foundation.Enumeration
open Foundation.StepRuns

variable {σ F : Type}

/-- The three commands that share the parser. -/
inductive Which where
  | get
  | set
  | info
  deriving DecidableEq

/-- The shared parser in its world, and the commands made on it. -/
structure Session (σ : Type) where
  world : World σ
  cmds : Which → BasicCommand (World σ)

/-- A call of `reload`, one call of a command's `param_generator`, or an
execution of a command. -/
inductive Event where
  | reload (fs : FileSystem) (filepath : Text)
  | generate (which : Which) (text : Text) (state : Int)
  | execute (which : Which) (args : List Text)

namespace Session

variable (parse : XmlParse) (P : Platform σ F) (order : IterationOrder Text)

/-- The commands made on a parser. -/
def makeCommand (parser : IoParser) : Which → BasicCommand (World σ)
  | .get => makeGetCommand P order parser
  | .set => makeSetCommand P order parser
  | .info => makeInfoCommand order parser

def start (parser : IoParser) (io : σ) : Session σ where
  world := { parser := parser, io := io }
  cmds := makeCommand P order parser

def step (s : Session σ) : Event → Session σ
  | .reload fs filepath =>
      { s with world := { s.world with
          parser := (s.world.parser.reload parse fs filepath).1 } }
  | .generate which text state =>
      { s with cmds := Function.update s.cmds which ((s.cmds which).paramGenerator text state).2 }
  | .execute which args => { s with world := ((s.cmds which).execute args s.world).world }

/-- Every command enumerates exactly the matching names that `find_item` finds. -/
def InStep (s : Session σ) : Prop :=
  ∀ which text, text ≠ [] → ∃ found, (s.cmds which).Enumerates text found ∧
    ∀ c, c ∈ found ↔ (s.world.parser.findItem c).isSome = true ∧ text <+: c

/-- Agreement over every text is agreement of the nonempty names. -/
theorem inStep_iff_names (s : Session σ) :
    s.InStep ↔ ∀ which c, c ≠ [] →
      (c ∈ (s.cmds which).params ↔ (s.world.parser.findItem c).isSome = true) := by
  simp only [InStep, BasicCommand.enumerates_iff, exists_eq_left, BasicCommand.mem_offers]
  constructor
  · intro h which c hc
    simpa [hc] using h which c hc c
  · intro h which text ht c
    by_cases hc : c = []
    · simp [hc, ht]
    · simp [ht, h which c hc]

/-- What reloads, calls and executions never change: the commands complete over
the keys of `parser` and execute without replacing the shared parser, which is
well formed. -/
structure MadeOn (parser : IoParser) (s : Session σ) : Prop where
  params : ∀ which c, c ∈ (s.cmds which).params ↔ c ∈ parser.itemKeys
  execute : ∀ which args w, ((s.cmds which).execute args w).world.parser = w.parser
  wellFormed : s.world.parser.toTables.WellFormed

theorem madeOn_start {parser : IoParser} (h : parser.toTables.WellFormed) (io : σ) :
    MadeOn parser (start P order parser io) where
  params which c := by
    cases which <;> exact BasicCommand.mem_params_make order _ _ _ c
  execute which args w := by
    cases which <;> rfl
  wellFormed := h

theorem MadeOn.step {parser : IoParser} {s : Session σ} (h : MadeOn parser s) (e : Event) :
    MadeOn parser (s.step parse e) := by
  cases e with
  | reload fs filepath =>
      exact ⟨h.params, h.execute, wellFormed_reload parse fs h.wellFormed filepath⟩
  | execute which args =>
      refine ⟨h.params, h.execute, ?_⟩
      simp only [Session.step, h.execute]
      exact h.wellFormed
  | generate which text state =>
      obtain ⟨-, hexec, hparams, -⟩ := (s.cmds which).paramGenerator_same text state
      refine ⟨fun other c => ?_, fun other args w => ?_, h.wellFormed⟩
      · by_cases hw : other = which
        · subst hw
          simpa [Session.step, hparams] using h.params other c
        · simpa [Session.step, hw] using h.params other c
      · by_cases hw : other = which
        · subst hw
          simpa [Session.step, BasicCommand.execute, hexec] using h.execute other args w
        · simpa [Session.step, hw] using h.execute other args w

/-- The nonempty names of two key sets agree. -/
def SameNames (keys keys' : KeySet Text) : Prop := ∀ c, c ≠ [] → (c ∈ keys ↔ c ∈ keys')

theorem MadeOn.inStep_iff {parser : IoParser} {s : Session σ} (h : MadeOn parser s) :
    s.InStep ↔ SameNames s.world.parser.itemKeys parser.itemKeys := by
  have hfind : ∀ c, (s.world.parser.findItem c).isSome = true ↔ c ∈ s.world.parser.itemKeys := by
    intro c
    rw [h.wellFormed.itemKeys, mem_keySet]
    rfl
  simp only [inStep_iff_names, h.params, hfind]
  constructor
  · intro hs c hc
    exact (hs .get c hc).symm
  · intro hs _ c hc
    exact (hs c hc).symm

/-- A reload that finds a document with tables finds one with these names. -/
def KeepsNames (keys : KeySet Text) (s : Session σ) : Event → Prop
  | .reload fs filepath => ∀ nodes t,
      readDocument parse fs (target s.world.parser.filepath filepath) = some nodes →
        TablesOf nodes t → SameNames t.itemKeys keys
  | _ => True

theorem inStep_step {parser : IoParser} {s : Session σ} (h : MadeOn parser s) (hs : s.InStep)
    {e : Event} (he : KeepsNames parse parser.itemKeys s e) : (s.step parse e).InStep := by
  rw [h.inStep_iff] at hs
  rw [(h.step parse e).inStep_iff]
  cases e with
  | generate which text state => exact hs
  | execute which args => simpa only [Session.step, h.execute] using hs
  | reload fs filepath =>
      simp only [Session.step]
      rcases s.world.parser.reload_tables parse fs filepath with
        ⟨-, p', e, hrun, -, ht⟩ | ⟨_, e, p', -, -, hrun, -, ht⟩ | ⟨nodes, p', hdoc, hrun, -, ht⟩
      · simpa only [hrun, ht] using hs
      · simpa only [hrun, ht] using hs
      · rw [hrun]
        exact he nodes _ hdoc ht

/-- Agreement after a reload shows that the document loaded has the names of the
moment when the commands were made. -/
theorem keepsNames_of_inStep {parser : IoParser} {s : Session σ} (h : MadeOn parser s)
    {e : Event} (hs : (s.step parse e).InStep) : KeepsNames parse parser.itemKeys s e := by
  cases e with
  | generate which text state => trivial
  | execute which args => trivial
  | reload fs filepath =>
      intro nodes t hdoc ht
      rw [(h.step parse _).inStep_iff] at hs
      simp only [Session.step] at hs
      rcases s.world.parser.reload_tables parse fs filepath with
        ⟨hnone, -⟩ | ⟨nodes', e, p', hdoc', hx, -⟩ | ⟨nodes', p', hdoc', hrun, -, ht'⟩
      · simp [hnone] at hdoc
      · obtain rfl := Option.some.inj (hdoc'.symm.trans hdoc)
        exact absurd ⟨t, ht⟩ hx
      · obtain rfl := Option.some.inj (hdoc'.symm.trans hdoc)
        rw [hrun] at hs
        exact ht.unique ht' ▸ hs

theorem inStep_start {parser : IoParser} (h : parser.toTables.WellFormed) (io : σ) :
    (start P order parser io).InStep :=
  (madeOn_start P order h io).inStep_iff.mpr fun _ _ => Iff.rfl

/-- Completion and lookup agree at every moment of a run exactly when every
document loaded in it has the nonempty item names known when the commands were
made. -/
theorem inStep_throughout_iff {parser : IoParser} (h : Reachable parse parser) (io : σ)
    (events : List Event) :
    (∀ before after, events = before ++ after →
      (before.foldl (step parse) (start P order parser io)).InStep) ↔
    AllSteps (step parse) (KeepsNames parse parser.itemKeys) (start P order parser io) events := by
  exact throughout_iff_allSteps (J := MadeOn parser) (fun s e hs => hs.step parse e)
    (fun s e hs hin => ⟨keepsNames_of_inStep parse hs, inStep_step parse hs hin⟩)
    (madeOn_start P order h.wellFormed io) (inStep_start P order h.wellFormed io) events

/-- Reloading the configuration the commands were made on keeps them in step. -/
theorem inStep_throughout_sample : ∃ parser,
    IoParser.ofEnv sampleParse sampleFs (some (lit "conf.xml")) [] = .ok parser ∧
      ([Event.reload sampleFs []].foldl (step sampleParse)
        (start memoryPlatform (IterationOrder.latestFirst Text) parser ∅)).InStep := by
  have hok : (IoParser.ofEnv sampleParse sampleFs (some (lit "conf.xml")) []).isOk = true := by
    decide +kernel
  have henv : IoParser.envPath (some (lit "conf.xml")) [] = some (lit "conf.xml") := rfl
  rcases IoParser.ofEnv_tables sampleParse sampleFs henv with
    ⟨-, e, he⟩ | ⟨-, -, -, e, he⟩ | ⟨nodes, p, hdoc, hp, hpath, ht⟩
  · simp [he, Except.isOk, Except.toBool] at hok
  · simp [he, Except.isOk, Except.toBool] at hok
  · refine ⟨p, hp, ?_⟩
    refine (inStep_throughout_iff sampleParse memoryPlatform (IterationOrder.latestFirst Text)
      (Reachable.ofEnv hp) ∅ [.reload sampleFs []]).mpr ?_ [.reload sampleFs []] [] rfl
    refine allSteps_cons.mpr ⟨fun nodes' t hdoc' ht' => ?_, allSteps_nil _⟩
    rw [show (start memoryPlatform (IterationOrder.latestFirst Text) p ∅).world.parser = p from rfl,
      hpath, target_current, hdoc] at hdoc'
    obtain rfl := Option.some.inj hdoc'
    rw [ht.unique ht']
    exact fun _ _ => Iff.rfl

/-- Commands made before the first successful load complete nothing after it. -/
theorem inStep_fails_after_load :
    ¬ ∀ before after, [Event.reload sampleFs (lit "conf.xml")] = before ++ after →
      (before.foldl (step sampleParse)
        (start memoryPlatform (IterationOrder.latestFirst Text) {} ∅)).InStep := by
  intro h
  have hs := h [.reload sampleFs (lit "conf.xml")] [] rfl
  have hempty : ({} : IoParser).toTables.WellFormed := wellFormed_empty
  have hmade := (madeOn_start memoryPlatform (IterationOrder.latestFirst Text) hempty ∅).step
    sampleParse (.reload sampleFs (lit "conf.xml"))
  have hnames := (hmade.inStep_iff.mp hs) (lit "a") (by decide)
  have hmem : lit "a" ∈ (({} : IoParser).reload sampleParse sampleFs (lit "conf.xml")).1.itemKeys :=
    by decide +kernel
  exact absurd (hnames.mp hmem) (by decide)

end Session

end IoEmulator.CtfIo
