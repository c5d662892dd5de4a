import IoEmulator.Conf.Extraction
import IoEmulator.Foundation.StepRuns

/-!
# Runs of reload calls

A parser is built from the environment and then reloaded any number of times,
with any paths and file contents. Its tables are always those of one document,
the last one loaded. Its path is not: a document that is read but not accepted
leaves its path behind.

## Implementation notes

Each call comes with the file system it meets. The origin of the tables, a path
and a document, is recorded beside the parser and is no part of it.
-/

namespace IoEmulator.Conf

open Foundation.FirstWinsMap Foundation.StepRuns

/-- A call of `reload` and the file system it meets. -/
structure ReloadCall where
  fs : FileSystem
  filepath : Text

/-- A parser with the path and the document of its last load that returned. -/
structure Tracked where
  parser : IoParser
  origin : Option (Text × List XmlNode)

namespace Tracked

variable (parse : XmlParse)

/-- The record of a load of `path` that returned. -/
def loaded (fs : FileSystem) (path : Text) : Option (Text × List XmlNode) :=
  (readDocument parse fs path).map fun nodes => (path, nodes)

/-- The environment constructor. -/
def ofEnv (fs : FileSystem) (value : Option Text) (eqProj : Text) : Except Exn Tracked :=
  (IoParser.ofEnv parse fs value eqProj).map fun p =>
    ⟨p, (IoParser.envPath value eqProj).bind (loaded parse fs)⟩

/-- A call of `reload`, returning or throwing. -/
def step (s : Tracked) (call : ReloadCall) : Tracked :=
  match s.parser.reload parse call.fs call.filepath with
  | (p, .error _) => ⟨p, s.origin⟩
  | (p, .ok ()) => ⟨p, loaded parse call.fs (target s.parser.filepath call.filepath)⟩

/-- Everything a call can do to a parser and the record of its origin: find no
document, throw on a document without tables, or take over the tables. -/
theorem step_cases (s : Tracked) (call : ReloadCall) :
    (readDocument parse call.fs (target s.parser.filepath call.filepath) = none ∧
      (s.step parse call).parser.filepath = s.parser.filepath ∧
      (s.step parse call).parser.toTables = s.parser.toTables ∧
      (s.step parse call).origin = s.origin) ∨
    (∃ nodes, readDocument parse call.fs (target s.parser.filepath call.filepath) = some nodes ∧
      (¬ ∃ t, TablesOf nodes t) ∧
      (s.step parse call).parser.filepath = target s.parser.filepath call.filepath ∧
      (s.step parse call).parser.toTables = s.parser.toTables ∧
      (s.step parse call).origin = s.origin) ∨
    (∃ nodes, (s.parser.reload parse call.fs call.filepath).2 = .ok () ∧
      TablesOf nodes (s.step parse call).parser.toTables ∧
      (s.step parse call).parser.filepath = target s.parser.filepath call.filepath ∧
      (s.step parse call).origin = some (target s.parser.filepath call.filepath, nodes)) := by
  rcases s.parser.reload_tables parse call.fs call.filepath with
    ⟨hdoc, p', e, hrun, hpath, htab⟩ | ⟨nodes, e, p', hdoc, hx, hrun, hpath, htab⟩ |
    ⟨nodes, p', hdoc, hrun, hpath, ht⟩
  · left
    simp [step, hrun, hdoc, hpath, htab]
  · right; left
    exact ⟨nodes, hdoc, hx, by simp [step, hrun, hpath, htab]⟩
  · right; right
    refine ⟨nodes, by rw [hrun], ?_, by simp [step, hrun, hpath],
      by simp [step, hrun, loaded, hdoc]⟩
    simp only [step, hrun]
    exact ht

/-- Everything the environment constructor can deliver. -/
theorem ofEnv_cases {fs : FileSystem} {value : Option Text} {eqProj : Text} {s : Tracked}
    (h : ofEnv parse fs value eqProj = .ok s) :
    s = ⟨{}, none⟩ ∨
      ∃ nodes, TablesOf nodes s.parser.toTables ∧ s.origin = some (s.parser.filepath, nodes) := by
  cases henv : IoParser.envPath value eqProj with
  | none =>
      left
      simpa [ofEnv, IoParser.ofEnv, henv, Except.map, eq_comm] using h
  | some path =>
      right
      rcases IoParser.ofEnv_tables parse fs henv with
        ⟨-, e, hrun⟩ | ⟨-, -, -, e, hrun⟩ | ⟨nodes, p, hdoc, hrun, rfl, ht⟩
      · simp [ofEnv, hrun, Except.map] at h
      · simp [ofEnv, hrun, Except.map] at h
      · simp only [ofEnv, henv, hrun, Except.map, Except.ok.injEq, Option.bind_some] at h
        subst h
        exact ⟨nodes, ht, by simp [loaded, hdoc]⟩

section Sample

/-- A configuration with one item, and a well-formed file that is none. -/
def sampleConf : List UInt8 :=
  "<IODEF><DRIVERS/><ITEMS><ITEM name='a'/></ITEMS></IODEF>".toUTF8.data.toList

def sampleConfNodes : List XmlNode :=
  [⟨rootNodeK, [], [⟨drvsNodeK, [], []⟩,
    ⟨itemsNodeK, [], [⟨itemAttrK, [(lit "name", lit "a")], []⟩]⟩]⟩]

def sampleOther : List UInt8 := "<A/>".toUTF8.data.toList

def sampleParse : XmlParse :=
  parseTable [(sampleConf, sampleConfNodes), (sampleOther, [⟨lit "A", [], []⟩])]

def sampleFs : FileSystem :=
  .ofFiles [(lit "conf.xml", sampleConf), (lit "other.xml", sampleOther)]

theorem sample_reload : (IoParser.reload sampleParse sampleFs (lit "conf.xml") {}).2 = .ok () := by
  decide +kernel

/-- Loading the sample and naming the other file leaves a parser that holds the
sample's item and points to the other file. -/
theorem sample_run : ∃ s₀, ofEnv sampleParse sampleFs (some (lit "conf.xml")) [] = .ok s₀ ∧
    s₀.parser.filepath = lit "conf.xml" ∧
    (s₀.parser.reload sampleParse sampleFs (lit "other.xml")).2 = .error (nodeNotFound rootNodeK) ∧
    (s₀.step sampleParse ⟨sampleFs, lit "other.xml"⟩).parser.filepath = lit "other.xml" ∧
    ((s₀.step sampleParse ⟨sampleFs, lit "other.xml"⟩).parser.findItem (lit "a")).isSome := by
  have h : (ofEnv sampleParse sampleFs (some (lit "conf.xml")) []).map (fun s =>
      (s.parser.filepath, (s.parser.reload sampleParse sampleFs (lit "other.xml")).2,
        (s.step sampleParse ⟨sampleFs, lit "other.xml"⟩).parser.filepath,
        ((s.step sampleParse ⟨sampleFs, lit "other.xml"⟩).parser.findItem (lit "a")).isSome)) =
      .ok (lit "conf.xml", .error (nodeNotFound rootNodeK), lit "other.xml", true) := by
    decide +kernel
  obtain ⟨s₀, hs, hvalues⟩ := map_eq_ok_iff.mp h
  exact ⟨s₀, hs, by simpa using hvalues⟩

end Sample

section Snapshot

/-- The tables are those of the recorded document, or empty without one. -/
def Snapshot (s : Tracked) : Prop :=
  (s.origin = none ∧ s.parser.toTables = {}) ∨
    ∃ path nodes, s.origin = some (path, nodes) ∧ TablesOf nodes s.parser.toTables

theorem snapshot_ofEnv {fs : FileSystem} {value : Option Text} {eqProj : Text} {s : Tracked}
    (h : ofEnv parse fs value eqProj = .ok s) : s.Snapshot := by
  rcases ofEnv_cases parse h with rfl | ⟨nodes, ht, ho⟩
  · exact Or.inl ⟨rfl, rfl⟩
  · exact Or.inr ⟨_, nodes, ho, ht⟩

/-- A call keeps the tables and their origin together, however it ends. -/
theorem Snapshot.step {s : Tracked} (h : s.Snapshot) (call : ReloadCall) :
    (s.step parse call).Snapshot := by
  unfold Snapshot
  rcases s.step_cases parse call with
    ⟨-, -, ht, ho⟩ | ⟨-, -, -, -, ht, ho⟩ | ⟨nodes, -, ht, -, ho⟩
  · rw [ht, ho]
    exact h
  · rw [ht, ho]
    exact h
  · exact Or.inr ⟨_, nodes, ho, ht⟩

theorem Snapshot.run {s : Tracked} (h : s.Snapshot) (calls : List ReloadCall) :
    (calls.foldl (Tracked.step parse) s).Snapshot :=
  List.foldlRecOn calls _ h fun _ hs call _ => hs.step parse call

theorem Snapshot.wellFormed {s : Tracked} (h : s.Snapshot) : s.parser.toTables.WellFormed := by
  rcases h with ⟨-, ht⟩ | ⟨path, nodes, -, ht⟩
  · exact ht ▸ wellFormed_empty
  · exact ht.wellFormed

/-- After every run of calls the three tables are together those of the document
of the last load that returned, or empty when none did. The key set is that of
the item table, and items and drivers stand under their own keys, which differ
for different driver ids. -/
theorem run_snapshot {fs : FileSystem} {value : Option Text} {eqProj : Text} {s₀ : Tracked}
    (h₀ : ofEnv parse fs value eqProj = .ok s₀) (calls : List ReloadCall) :
    let s := calls.foldl (Tracked.step parse) s₀
    (s.origin = none → s.parser.toTables = {}) ∧
      (∀ path nodes, s.origin = some (path, nodes) → TablesOf nodes s.parser.toTables) ∧
      s.parser.itemKeys = keySet s.parser.items ∧
      (∀ name i, s.parser.findItem name = some i → i.name = name) ∧
      (∀ k d, s.parser.findDriver k = some d → k = d.id.toUInt32) ∧
      ∀ k k' d d', s.parser.findDriver k = some d → s.parser.findDriver k' = some d' →
        d.id ≠ d'.id → k ≠ k' := by
  intro s
  have hs : s.Snapshot := (snapshot_ofEnv parse h₀).run parse calls
  have hwf := hs.wellFormed
  refine ⟨?_, ?_, hwf.itemKeys, hwf.items, ?_, ?_⟩
  · intro hnone
    rcases hs with ⟨-, ht⟩ | ⟨path, nodes, ho, -⟩
    · exact ht
    · rw [hnone] at ho
      simp at ho
  · intro path nodes hsome
    rcases hs with ⟨ho, -⟩ | ⟨path', nodes', ho, ht⟩
    · rw [hsome] at ho
      simp at ho
    · obtain ⟨rfl, rfl⟩ := Prod.mk.inj (Option.some.inj (hsome.symm.trans ho))
      exact ht
  · intro k d hd
    exact (hwf.drivers k d hd).symm
  · intro k k' d d' hd hd' hne hk
    have hkey : d.key = d'.key := (hwf.drivers k d hd).trans (hk.trans (hwf.drivers k' d' hd').symm)
    exact hne (Driver.key_inj.mp hkey)

/-- The tables of the sample survive a failing call under the key of its item. -/
theorem run_snapshot_sample : ∃ s₀,
    ofEnv sampleParse sampleFs (some (lit "conf.xml")) [] = .ok s₀ ∧
      lit "a" ∈ (List.foldl (Tracked.step sampleParse) s₀
        [⟨sampleFs, lit "other.xml"⟩]).parser.itemKeys := by
  obtain ⟨s₀, h₀, -, -, -, hitem⟩ := sample_run
  obtain ⟨-, -, hkeys, -⟩ := run_snapshot sampleParse h₀ [⟨sampleFs, lit "other.xml"⟩]
  refine ⟨s₀, h₀, ?_⟩
  rw [hkeys, mem_keySet]
  exact hitem

end Snapshot

section FailedCall

/-- A path-less reload cannot tell the two parsers apart. -/
def SameReload (fs : FileSystem) (p p' : IoParser) : Prop :=
  (p'.reload parse fs []).2 = (p.reload parse fs []).2 ∧
    (p'.reload parse fs []).1.filepath = (p.reload parse fs []).1.filepath ∧
    (p'.reload parse fs []).1.toTables = (p.reload parse fs []).1.toTables

/-- A call leaves path and tables as they were, a path-less reload on the
unchanged file system behaves as it would have without the call, and it reads
the file the tables came from. -/
structure NoEffect (s : Tracked) (call : ReloadCall) : Prop where
  filepath : (s.step parse call).parser.filepath = s.parser.filepath
  tables : (s.step parse call).parser.toTables = s.parser.toTables
  nextReload : SameReload parse call.fs s.parser (s.step parse call).parser
  rereads : ∀ path nodes, s.origin = some (path, nodes) →
    target (s.step parse call).parser.filepath [] = path

/-- The call names no file other than the current one; or the file it names
yields no document; or its document has tables. -/
def SafeCall (p : IoParser) (call : ReloadCall) : Prop :=
  call.filepath = [] ∨ call.filepath = p.filepath ∨
    readDocument parse call.fs call.filepath = none ∨
    ∃ nodes t, readDocument parse call.fs call.filepath = some nodes ∧ TablesOf nodes t

/-- The current path is the one the tables were loaded from. -/
def AtOrigin (s : Tracked) : Prop :=
  ∀ path nodes, s.origin = some (path, nodes) → s.parser.filepath = path

theorem atOrigin_ofEnv {fs : FileSystem} {value : Option Text} {eqProj : Text} {s : Tracked}
    (h : ofEnv parse fs value eqProj = .ok s) : s.AtOrigin := by
  intro path nodes ho
  rcases ofEnv_cases parse h with rfl | ⟨nodes', -, ho'⟩
  · simp at ho
  · exact (Prod.mk.inj (Option.some.inj (ho'.symm.trans ho))).1

/-- A safe call that reads a document without tables stays on the current path. -/
theorem SafeCall.target_eq {p : IoParser} {call : ReloadCall} (h : SafeCall parse p call)
    {nodes : List XmlNode}
    (hdoc : readDocument parse call.fs (target p.filepath call.filepath) = some nodes)
    (hx : ¬ ∃ t, TablesOf nodes t) : target p.filepath call.filepath = p.filepath := by
  by_cases hq : call.filepath = []
  · simp [target, hq]
  · rw [target, if_neg hq] at hdoc ⊢
    rcases h with h | h | h | ⟨nodes', t, hdoc', ht⟩
    · exact absurd h hq
    · exact h
    · simp [h] at hdoc
    · obtain rfl := Option.some.inj (hdoc'.symm.trans hdoc)
      exact absurd ⟨t, ht⟩ hx

theorem AtOrigin.step {s : Tracked} (h : s.AtOrigin) {call : ReloadCall}
    (hsafe : SafeCall parse s.parser call) : (s.step parse call).AtOrigin := by
  intro path nodes ho
  rcases s.step_cases parse call with
    ⟨-, hp, -, ho'⟩ | ⟨nodes', hdoc, hx, hp, -, ho'⟩ | ⟨nodes', -, -, hp, ho'⟩
  · rw [hp]
    exact h path nodes (ho' ▸ ho)
  · rw [hp, hsafe.target_eq parse hdoc hx]
    exact h path nodes (ho' ▸ ho)
  · rw [hp]
    exact (Prod.mk.inj (Option.some.inj (ho'.symm.trans ho))).1

/-- In a run of safe calls, a throwing call has no effect exactly when it is safe
too: otherwise it moves the path to a file the tables do not come from. -/
theorem failed_reload_noEffect_iff {fs : FileSystem} {value : Option Text} {eqProj : Text}
    {s₀ : Tracked} (h₀ : ofEnv parse fs value eqProj = .ok s₀) {calls : List ReloadCall}
    (hsafe : AllSteps (Tracked.step parse) (fun s call => SafeCall parse s.parser call) s₀ calls)
    {call : ReloadCall} {e : Exn}
    (hthrow : ((calls.foldl (Tracked.step parse) s₀).parser.reload parse call.fs
      call.filepath).2 = .error e) :
    NoEffect parse (calls.foldl (Tracked.step parse) s₀) call ↔
      SafeCall parse (calls.foldl (Tracked.step parse) s₀).parser call := by
  have horigin : (calls.foldl (Tracked.step parse) s₀).AtOrigin :=
    hsafe.invariant (fun _ _ hs hcall => AtOrigin.step parse hs hcall) (atOrigin_ofEnv parse h₀)
  generalize calls.foldl (Tracked.step parse) s₀ = s at hthrow horigin ⊢
  constructor
  · intro h
    by_contra hunsafe
    simp only [SafeCall, not_or, not_exists] at hunsafe
    obtain ⟨hnil, hne, hdoc, hx⟩ := hunsafe
    have htarget : target s.parser.filepath call.filepath = call.filepath := if_neg hnil
    rcases s.step_cases parse call with ⟨hnone, -⟩ | ⟨nodes, -, -, hpath, -⟩ | ⟨nodes, hok, -⟩
    · exact hdoc (htarget ▸ hnone)
    · exact hne (htarget.symm.trans (hpath.symm.trans h.filepath))
    · simp [hok] at hthrow
  · intro h
    have hsame : (s.step parse call).parser.filepath = s.parser.filepath ∧
        (s.step parse call).parser.toTables = s.parser.toTables := by
      rcases s.step_cases parse call with
        ⟨-, hp, ht, -⟩ | ⟨nodes, hdoc, hx, hp, ht, -⟩ | ⟨nodes, hok, -⟩
      · exact ⟨hp, ht⟩
      · exact ⟨hp.trans (h.target_eq parse hdoc hx), ht⟩
      · simp [hok] at hthrow
    obtain ⟨hout, hp, ht⟩ := IoParser.reload_congr parse call.fs [] hsame.1 hsame.2
    refine ⟨hsame.1, hsame.2, ⟨hout, hp, ht⟩, fun path nodes ho => ?_⟩
    simpa [target, hsame.1] using horigin path nodes ho

/-- After a reload of the same file and of none, naming a missing file has no effect. -/
theorem failed_reload_noEffect_sample : ∃ s₀,
    ofEnv sampleParse sampleFs (some (lit "conf.xml")) [] = .ok s₀ ∧
      NoEffect sampleParse
        ([⟨sampleFs, lit "conf.xml"⟩, ⟨sampleFs, lit "missing.xml"⟩, ⟨sampleFs, []⟩].foldl
          (Tracked.step sampleParse) s₀) ⟨sampleFs, lit "missing.xml"⟩ := by
  obtain ⟨s₀, h₀, hpath, -⟩ := sample_run
  have hrun : AllSteps (Tracked.step sampleParse)
      (fun s call => SafeCall sampleParse s.parser call) s₀
      [⟨sampleFs, lit "conf.xml"⟩, ⟨sampleFs, lit "missing.xml"⟩, ⟨sampleFs, []⟩] := by
    refine allSteps_cons.mpr ⟨Or.inr (Or.inl hpath.symm), allSteps_cons.mpr ⟨?_, ?_⟩⟩
    · exact Or.inr (Or.inr (Or.inl rfl))
    · exact allSteps_cons.mpr ⟨Or.inl rfl, allSteps_nil _⟩
  exact ⟨s₀, h₀, (failed_reload_noEffect_iff sampleParse h₀ hrun
    (e := .runtimeError (lit "invalid filepath: missing.xml")) rfl).mpr
    (Or.inr (Or.inr (Or.inl rfl)))⟩

/-- A well-formed file without configuration replaces the path. -/
theorem failed_reload_moves_path : ∃ s₀,
    ofEnv sampleParse sampleFs (some (lit "conf.xml")) [] = .ok s₀ ∧
      (s₀.parser.reload sampleParse sampleFs (lit "other.xml")).2 =
        .error (nodeNotFound rootNodeK) ∧
      ¬ NoEffect sampleParse s₀ ⟨sampleFs, lit "other.xml"⟩ := by
  obtain ⟨s₀, h₀, hpath, hthrow, hmoved, -⟩ := sample_run
  refine ⟨s₀, h₀, hthrow, fun h => ?_⟩
  have := hmoved.symm.trans (h.filepath.trans hpath)
  exact absurd this (by decide)

end FailedCall

end Tracked

end IoEmulator.Conf
