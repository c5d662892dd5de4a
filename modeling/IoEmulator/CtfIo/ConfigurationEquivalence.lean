import IoEmulator.CtfIo.Transcript
import IoEmulator.Conf.DocumentEdits

/-!
# Configurations that no session tells apart

A user sees a configuration through the text on the console only. Two loaded
configurations give the same text in every session, but for the order in which
`info all` lists the items, exactly when the listing shows the same items, and the
items that can be named on a line have the same `pr` and `pw`. So on one IO layer a
user can tell what can be told on any.

## Implementation notes

The listing is in the order of a hash map, which the configuration does not
determine. The two programs have one each, which need not have anything to do with
the other.
-/

namespace IoEmulator.CtfIo

open Conf Termctl Foundation.Enumeration Foundation.FirstWinsMap Foundation.KeyedEdits
open Foundation.InterruptibleLoop Foundation.Fields

variable {σ F : Type}

/-- What shows of an item that can be named: all but which negative driver it has. -/
def seenItem (item : Item) : Item := { item with driverId := shownDriver item.driverId }

/-- No lookup that a line can make differs in what is shown or used of an item. -/
structure SeenAlike (p p' : IoParser) : Prop where
  shown : ∀ n, (p.findItem n).map shownItem = (p'.findItem n).map shownItem
  seen : ∀ n, Statement.IsWord n → (p.findItem n).map seenItem = (p'.findItem n).map seenItem

section Lookups

variable {P : Platform σ F} (order order' : IterationOrder Text) {p p' : IoParser}

/-- Items that are seen alike differ in the driver only. -/
theorem findItem_of_seen {n : Text}
    (h : (p.findItem n).map seenItem = (p'.findItem n).map seenItem) :
    (p.findItem n = none ∧ p'.findItem n = none) ∨
      ∃ item drv, p.findItem n = some item ∧
        p'.findItem n = some { item with driverId := drv } := by
  cases hfind : p.findItem n with
  | none =>
      rw [hfind, Option.map_none, eq_comm, Option.map_eq_none_iff] at h
      exact Or.inl ⟨rfl, h⟩
  | some item =>
      rw [hfind, Option.map_some, eq_comm, Option.map_eq_some_iff] at h
      obtain ⟨item', hfind', hseen⟩ := h
      simp only [seenItem, Item.mk.injEq] at hseen
      obtain ⟨hcategory, hdt, -, hname, hpr, hpw⟩ := hseen
      refine Or.inr ⟨item, item'.driverId, rfl, ?_⟩
      rw [hfind', ← hcategory, ← hdt, ← hname, ← hpr, ← hpw]

theorem performCommandGet_congr {args : List Text}
    (h : ∀ n ∈ args, (p.findItem n).map seenItem = (p'.findItem n).map seenItem) (io : σ) :
    performCommandGet P args p io = performCommandGet P args p' io := by
  cases args with
  | nil => rfl
  | cons n rest =>
      rcases findItem_of_seen (h n List.mem_cons_self) with
        ⟨hfind, hfind'⟩ | ⟨item, drv, hfind, hfind'⟩
      · simp only [performCommandGet, hfind, hfind']
      · simp only [performCommandGet, hfind, hfind']

theorem performCommandSet_congr {args : List Text}
    (h : ∀ n ∈ args, (p.findItem n).map seenItem = (p'.findItem n).map seenItem) (io : σ) :
    performCommandSet P args p io = performCommandSet P args p' io := by
  match args with
  | [] => rfl
  | [_] => rfl
  | _ :: _ :: _ :: _ => rfl
  | [n, value] =>
      rcases findItem_of_seen (h n List.mem_cons_self) with
        ⟨hfind, hfind'⟩ | ⟨item, drv, hfind, hfind'⟩
      · simp only [performCommandSet, hfind, hfind']
      · simp only [performCommandSet, prwOf, hfind, hfind']
        rfl

theorem prettyPrint_shownItem (item : Item) : (shownItem item).prettyPrint = item.prettyPrint := by
  rw [prettyPrint_eq_closed, itemFields_shownItem, ← prettyPrint_eq_closed]

theorem mem_keySet_iff_of_shown
    (h : ∀ n, (p.findItem n).map shownItem = (p'.findItem n).map shownItem) (n : Text) :
    n ∈ keySet p.items ↔ n ∈ keySet p'.items := by
  have hsome := congrArg Option.isSome (h n)
  rw [Option.isSome_map, Option.isSome_map] at hsome
  rw [mem_keySet, mem_keySet]
  exact Eq.congr_left hsome

/-- The statement asks for the listing of all items. -/
def Statement.Lists (st : Statement) : Prop := ∃ rest, st = .ask .info (lit "all" :: rest)

theorem texts_listing (rest : List Text) (p : IoParser) (io : σ) :
    (performCommandInfo order (lit "all" :: rest) p io).outputs.flatMap Output.texts =
      (order.arrange (keySet p.items)).filterMap fun n => (p.findItem n).map Item.prettyPrint := by
  have hinfo : (performCommandInfo order (lit "all" :: rest) p io).outputs =
      ((order.arrange (keySet p.items)).filterMap p.findItem).map (.report ∘ .info) := by
    simp [performCommandInfo, Performed.outputs, thrown]
  have htexts : ∀ item, Output.texts ((.report ∘ .info) item) = [item.prettyPrint] :=
    fun item => rfl
  rw [hinfo, List.flatMap_map]
  simp only [htexts]
  rw [← List.map_eq_flatMap, List.map_filterMap]

/-- The lines of an info are those of the items found, in some order when all are
asked for. -/
theorem performCommandInfo_congr
    (h : ∀ n, (p.findItem n).map shownItem = (p'.findItem n).map shownItem) (args : List Text)
    (io io' : σ) :
    ((performCommandInfo order args p io).outputs.flatMap Output.texts).Perm
        ((performCommandInfo order' args p' io').outputs.flatMap Output.texts) ∧
      (¬ (Statement.ask .info args).Lists →
        (performCommandInfo order args p io).outputs.flatMap Output.texts =
          (performCommandInfo order' args p' io').outputs.flatMap Output.texts) := by
  have hprint : ∀ n,
      (p.findItem n).map Item.prettyPrint = (p'.findItem n).map Item.prettyPrint := by
    intro n
    have hmap := congrArg (Option.map Item.prettyPrint) (h n)
    simpa only [Option.map_map, Function.comp_def, prettyPrint_shownItem] using hmap
  cases args with
  | nil => exact ⟨.rfl, fun _ => rfl⟩
  | cons n rest =>
      by_cases hall : n = lit "all"
      · subst hall
        refine ⟨?_, fun hno => absurd ⟨rest, rfl⟩ hno⟩
        rw [texts_listing, texts_listing]
        simp only [hprint]
        exact (order.arrange_perm order' (mem_keySet_iff_of_shown h)).filterMap _
      · have hsame : (performCommandInfo order (n :: rest) p io).outputs.flatMap Output.texts =
            (performCommandInfo order' (n :: rest) p' io').outputs.flatMap Output.texts := by
          have hn := hprint n
          simp only [performCommandInfo, if_neg hall]
          cases hfind : p.findItem n with
          | none =>
              cases hfind' : p'.findItem n with
              | none => rfl
              | some item' => simp [hfind, hfind'] at hn
          | some item =>
              cases hfind' : p'.findItem n with
              | none => simp [hfind, hfind'] at hn
              | some item' =>
                  rw [hfind, hfind'] at hn
                  exact congrArg (fun l => [l]) (Option.some.inj hn)
        exact ⟨hsame ▸ .rfl, fun _ => hsame⟩

end Lookups

section Sessions

variable (P : Platform σ F) (order order' : IterationOrder Text) {p p' : IoParser}

/-- Devices on two configurations that are at the same point of their sessions. -/
structure SamePoint (d d' : Device σ) : Prop where
  io : d.io = d'.io
  up : d.up = d'.up

theorem SeenAlike.performCommand (h : SeenAlike p p') (which : Which) {args : List Text}
    (hargs : ∀ w ∈ args, Statement.IsWord w) (io : σ) :
    let r := performCommand P order which args p io
    let r' := performCommand P order' which args p' io
    r.io = r'.io ∧ (r.outputs.flatMap Output.texts).Perm (r'.outputs.flatMap Output.texts) ∧
      (¬ (Statement.ask which args).Lists →
        r.outputs.flatMap Output.texts = r'.outputs.flatMap Output.texts) := by
  have hseen : ∀ n ∈ args, (p.findItem n).map seenItem = (p'.findItem n).map seenItem :=
    fun n hn => h.seen n (hargs n hn)
  cases which with
  | get =>
      simp only [CtfIo.performCommand, performCommandGet_congr (P := P) hseen io]
      exact ⟨trivial, .rfl, fun _ => trivial⟩
  | set =>
      simp only [CtfIo.performCommand, performCommandSet_congr (P := P) hseen io]
      exact ⟨trivial, .rfl, fun _ => trivial⟩
  | info =>
      have hio := (info_spec p order args io).1.trans (info_spec p' order' args io).1.symm
      exact ⟨hio, performCommandInfo_congr order order' h.shown args io io⟩

theorem SeenAlike.step (h : SeenAlike p p') {d d' : Device σ} (hd : SamePoint d d')
    {st : Statement} (hst : st.Typable) :
    SamePoint (d.step P order p st) (d'.step P order' p' st) := by
  obtain ⟨hio, hup⟩ := hd
  cases st with
  | exit => exact ⟨hio, rfl⟩
  | ask which args =>
      refine ⟨?_, hup⟩
      simp only [Device.step, hio]
      exact (h.performCommand P order order' which hst d'.io).1
  | _ => exact ⟨hio, hup⟩

/-- At the same point a statement prints the same, but for the order of a listing. -/
theorem SeenAlike.prints (h : SeenAlike p p') {d d' : Device σ} (hio : d.io = d'.io)
    {st : Statement} (hst : st.Typable) :
    ((d.prints P order p st).flatMap Output.texts).Perm
        ((d'.prints P order' p' st).flatMap Output.texts) ∧
      (¬ st.Lists → (d.prints P order p st).flatMap Output.texts =
        (d'.prints P order' p' st).flatMap Output.texts) := by
  cases st with
  | ask which args =>
      simp only [Device.prints, hio]
      exact (h.performCommand P order order' which hst d'.io).2
  | _ => exact ⟨.rfl, fun _ => rfl⟩

/-- The device after at most `k` lines. -/
def Device.after (p : IoParser) (io : σ) (input : Stream' (Option Text)) (k : ℕ) : Device σ :=
  (Device.session P order p k io (input.map Statement.ofLine)).1

theorem Device.after_succ (p : IoParser) (io : σ) (input : Stream' (Option Text)) (k : ℕ) :
    Device.after P order p io input (k + 1) =
      if (Device.after P order p io input k).up then
        (Device.after P order p io input k).step P order p (Statement.ofLine (input.get k))
      else Device.after P order p io input k := by
  have hsucc := drive_succ Device.up (Device.step P order p) k { io := io }
    (input.map Statement.ofLine)
  rwa [Stream'.get_map] at hsucc

/-- Sessions on configurations that are seen alike go together. -/
theorem SeenAlike.after (h : SeenAlike p p') (io : σ) (input : Stream' (Option Text)) (k : ℕ) :
    SamePoint (Device.after P order p io input k) (Device.after P order' p' io input k) := by
  induction k with
  | zero => exact ⟨rfl, rfl⟩
  | succ k ih =>
      rw [Device.after_succ, Device.after_succ, ← ih.up]
      split
      · exact h.step P order order' ih (Statement.typable_ofLine _)
      · exact ih

variable (name : Text)

/-- What serving line number `k` of the input adds to the console. -/
def added (p : IoParser) (io : σ) (input : Stream' (Option Text)) (k : ℕ) : List Line :=
  (program P order p name (k + 1) io input).1.console.drop
    (program P order p name k io input).1.console.length

theorem added_eq (p : IoParser) (io : σ) (input : Stream' (Option Text)) (k : ℕ) :
    added P order name p io input k =
      if (Device.after P order p io input k).up then
        ((Device.after P order p io input k).prints P order p
          (Statement.ofLine (input.get k))).flatMap Output.lines
      else [] := by
  have hconsole : ∀ k, (program P order p name k io input).1.console =
      (Device.after P order p io input k).outputs.flatMap Output.lines := fun k =>
    (program_tracks P order p name k io input).1.console
  rw [added, hconsole, hconsole, Device.after_succ]
  split
  · rw [Device.step_outputs, List.flatMap_append, List.drop_left]
  · exact List.drop_length

/-- The lines that outputs put on the console. -/
def shownLines (l : List Output) : List Text :=
  (l.flatMap Output.texts).flatMap (List.splitOn newline)

theorem consoleLines_outputs (l : List Output) :
    consoleLines (l.flatMap Output.lines) = shownLines l ++ [[]] := by
  rw [consoleLines_eq, map_text_flatMap_lines, shownLines]

end Sessions

section TellingApart

variable (P : Platform σ F) (order order' : IterationOrder Text) (name : Text) (io : σ)
  {p p' : IoParser}

/-- No line that can be typed adds to the console what shows which configuration the
session is on, where the order of a listing does not count. -/
def SameSessions (p p' : IoParser) : Prop :=
  ∀ (input : Stream' (Option Text)) k,
    (consoleLines (added P order name p io input k)).Perm
        (consoleLines (added P order' name p' io input k)) ∧
      (¬ (Statement.ofLine (input.get k)).Lists →
        consoleText (added P order name p io input k) =
          consoleText (added P order' name p' io input k))

variable {P order order' name io}

theorem SameSessions.symm (h : SameSessions P order order' name io p p') :
    SameSessions P order' order name io p' p :=
  fun input k => ⟨(h input k).1.symm, fun hno => ((h input k).2 hno).symm⟩

/-- Configurations that are seen alike give the same sessions. -/
theorem SeenAlike.sameSessions (h : SeenAlike p p') : SameSessions P order order' name io p p' := by
  intro input k
  obtain ⟨hio, hup⟩ := h.after P order order' io input k
  rw [added_eq, added_eq, ← hup]
  split
  · obtain ⟨hperm, hsame⟩ :=
      h.prints P order order' hio (Statement.typable_ofLine (input.get k))
    refine ⟨?_, fun hno => ?_⟩
    · rw [consoleLines_outputs, consoleLines_outputs]
      exact (hperm.flatMap_right _).append_right _
    · rw [consoleText, consoleText, map_text_flatMap_lines, map_text_flatMap_lines, hsame hno]
  · exact ⟨.rfl, fun _ => rfl⟩

/-- A command on arguments that are words shows the same, but for the order of a
listing. -/
theorem SameSessions.asked (h : SameSessions P order order' name io p p') (which : Which)
    {args : List Text} (hargs : ∀ w ∈ args, Statement.IsWord w) :
    (shownLines (performCommand P order which args p io).outputs).Perm
        (shownLines (performCommand P order' which args p' io).outputs) ∧
      (¬ (Statement.ask which args).Lists →
        shownLines (performCommand P order which args p io).outputs =
          shownLines (performCommand P order' which args p' io).outputs) := by
  have hst : (Statement.ask which args).Typable := hargs
  have hline : Statement.ofLine (some (Statement.ask which args).render) = .ask which args :=
    Statement.ofLine_render hst
  obtain ⟨hperm, hsame⟩ := h (Stream'.const (some (Statement.ask which args).render)) 0
  have hadded : ∀ (order : IterationOrder Text) (p : IoParser),
      added P order name p io (Stream'.const (some (Statement.ask which args).render)) 0 =
        (performCommand P order which args p io).outputs.flatMap Output.lines := by
    intro order p
    have hup : (Device.after P order p io
        (Stream'.const (some (Statement.ask which args).render)) 0).up = true := rfl
    rw [added_eq, if_pos hup, Stream'.get_const, hline]
    rfl
  rw [hadded, hadded, consoleLines_outputs, consoleLines_outputs,
    List.perm_append_right_iff] at hperm
  rw [hadded, hadded, Stream'.get_const, hline] at hsame
  refine ⟨hperm, fun hno => ?_⟩
  have hlines := congrArg (List.splitOn newline) (hsame hno)
  change consoleLines _ = consoleLines _ at hlines
  rw [consoleLines_outputs, consoleLines_outputs] at hlines
  exact List.append_cancel_right hlines

/-- The listing of plain items has a line for each. -/
theorem shownLines_listing (order : IterationOrder Text) (hplain : PlainItems p) (io : σ) :
    shownLines (performCommandInfo order [lit "all"] p io).outputs =
      (order.arrange (keySet p.items)).filterMap fun n =>
        (p.findItem n).map Item.prettyPrint := by
  rw [shownLines, texts_listing, flatMap_splitOn]
  intro text htext
  obtain ⟨n, -, hn⟩ := List.mem_filterMap.mp htext
  obtain ⟨item, hfind, rfl⟩ := Option.map_eq_some_iff.mp hn
  exact (hplain n item hfind).newline_notMem

/-- The listing shows every item of the one configuration on the other as well. -/
theorem SameSessions.exists_shown (h : SameSessions P order order' name io p p')
    (hitems : SelfKeyed Item.name p.items) (hitems' : SelfKeyed Item.name p'.items)
    (hplain : PlainItems p) (hplain' : PlainItems p') {n : Text} {item : Item}
    (hfind : p.findItem n = some item) :
    ∃ item', p'.findItem n = some item' ∧ shownItem item = shownItem item' := by
  have hall : ∀ w ∈ [lit "all"], Statement.IsWord w := by
    intro w hw
    obtain rfl := List.mem_singleton.mp hw
    exact ⟨by decide, isspace_eq_false_of_all rfl⟩
  have hperm := (h.asked .info hall).1
  simp only [performCommand, shownLines_listing _ hplain, shownLines_listing _ hplain'] at hperm
  have hkey : n ∈ order.arrange (keySet p.items) := by
    rw [order.mem_arrange, mem_keySet]
    exact Option.isSome_of_eq_some hfind
  have hline := hperm.subset (List.mem_filterMap.mpr ⟨n, hkey, by rw [hfind]; rfl⟩)
  obtain ⟨n', -, hn'⟩ := List.mem_filterMap.mp hline
  obtain ⟨item', hfind', hprint⟩ := Option.map_eq_some_iff.mp hn'
  have hshown := (prettyPrint_eq_iff (hplain n item hfind) (hplain' n' item' hfind')).mp hprint.symm
  have hname : item.name = item'.name := (Item.mk.inj hshown).2.2.2.1
  rw [hitems n item hfind, hitems' n' item' hfind'] at hname
  exact ⟨item', hname ▸ hfind', hshown⟩

/-- What a get throws for an item without a `pr`. -/
def emptyPr (n : Text) : Exn :=
  .invalidArgument (lit "the 'pr' value for module \"" ++ n ++ lit "\" could not be empty")

theorem newline_notMem_emptyPr {n : Text} (hn : Statement.IsWord n) :
    newline ∉ Shell.errorLine (emptyPr n) := by
  refine (plainOutput_error (unbrokenExn (e := emptyPr n) rfl ?_)).unbroken _
    (List.mem_singleton_self _)
  simp only [List.mem_append, not_or]
  exact ⟨⟨by decide, newline_notMem hn.2⟩, by decide⟩

variable (P io) in
/-- The last line of a get that reads is a verdict, and no complaint. -/
theorem getLast_get_readable {args : List Text} {item : Item} (h : Readable p args item) :
    ∃ text, ((performCommandGet P args p io).outputs.flatMap Output.texts).getLast? = some text ∧
      text.take 2 ≠ Opening.error.mark := by
  obtain ⟨v, -, -, hrun⟩ := h.run P p io
  rw [hrun]
  simp only [Performed.outputs, thrown, List.append_nil, List.map_append, List.map_singleton,
    List.flatMap_append, List.flatMap_singleton, Output.texts, Output.lines,
    List.getLast?_concat]
  refine ⟨_, rfl, fun hmark => ?_⟩
  rw [take_two_line] at hmark
  split at hmark <;> cases Opening.mark_inj hmark

variable (P io) in
/-- A get complains about an empty `pr`, and does nothing else, exactly when it is
empty. -/
theorem get_emptyPr_iff {n : Text} (hn : Statement.IsWord n) {item : Item}
    (hfind : p.findItem n = some item) :
    shownLines (performCommandGet P [n] p io).outputs = [Shell.errorLine (emptyPr n)] ↔
      item.pr = [] := by
  constructor
  · intro hlines
    have htexts := eq_singleton_of_flatMap_splitOn hlines
    by_contra hpr
    by_cases hkind : ∃ kind, kindOf item.dt = some kind
    · obtain ⟨text, hlast, hmark⟩ := getLast_get_readable P io
        (show Readable p [n] item from ⟨n, [], rfl, hfind, hpr, hkind⟩)
      rw [htexts, List.getLast?_singleton] at hlast
      exact hmark (Option.some.inj hlast ▸ rfl)
    · have hdt : item.dt = .unknown := by cases hdt : item.dt <;> simp_all [kindOf]
      have hconv : convert P item.dt [] =
          .error (.invalidArgument (lit "unsupported type for variant")) := by rw [hdt]; rfl
      simp only [performCommandGet, hfind, if_neg hpr, make_eq P hpr, hconv, Except.map] at htexts
      -- behind the common prefix the two messages differ in their first character
      have hwhat := congrArg (fun l => (l.drop 7).take 1) (List.cons.inj htexts).1
      exact absurd (show lit "u" = lit "t" from hwhat) (by decide)
  · intro hpr
    have houtputs : (performCommandGet P [n] p io).outputs = [.error (emptyPr n)] := by
      simp only [performCommandGet, hfind, hpr, if_true]
      rfl
    rw [houtputs]
    exact flatMap_splitOn (List.forall_mem_singleton.mpr (newline_notMem_emptyPr hn))

/-- The first line that is shown begins as the first output does. -/
theorem head_shownLines (o : Output) (l : List Output) :
    ∃ line rest, shownLines (o :: l) = line :: rest ∧ line.take 2 = o.opening.mark := by
  obtain ⟨text, more, htexts, hmark⟩ := exists_texts_eq o
  obtain ⟨lines, hlines⟩ := List.head?_eq_some_iff.mp (head?_splitOn newline text)
  have hshown : shownLines (o :: l) = text.splitOn newline ++
      (more ++ l.flatMap Output.texts).flatMap (List.splitOn newline) := by
    rw [shownLines, List.flatMap_cons, htexts, List.cons_append, List.flatMap_cons]
  rw [hlines] at hshown
  refine ⟨_, _, hshown, ?_⟩
  rw [List.take_takeWhile, hmark]
  cases o.opening <;> decide

variable (P io) in
/-- A set warns of an empty `pw`, and then says something else. -/
theorem set_outputs_eq {n : Text} {item : Item} (hfind : p.findItem n = some item)
    (value : Text) : ∃ o l, (performCommandSet P [n, value] p io).outputs =
      (pwWarning item).map .report ++ o :: l ∧ o.opening ≠ .warning := by
  by_cases hprw : prwOf item = []
  · simp only [performCommandSet, hfind, if_pos hprw]
    exact ⟨_, [], rfl, by rintro ⟨⟩⟩
  · cases hconv : convert P item.dt value with
    | error e =>
        rw [set_of_convert_error P p hfind hprw hconv]
        exact ⟨.error e, [], rfl, by rintro ⟨⟩⟩
    | ok raw =>
        rw [set_of_convert P p hfind hprw hconv]
        generalize Variant.write P ⟨raw, P.toIoName raw.kind (prwOf item)⟩ io = a
        simp only [Performed.outputs, thrown, List.append_nil, List.map_append, List.append_assoc,
          List.map_singleton]
        unfold IoAnswer.complaint
        split
        · refine ⟨_, [], rfl, ?_⟩
          split <;> rintro ⟨⟩
        · exact ⟨_, _, rfl, by rintro ⟨⟩⟩

variable (P io) in
/-- The warning comes first, or there is none. -/
theorem set_outputs_first {n : Text} {item : Item} (hfind : p.findItem n = some item)
    (value : Text) : ∃ o l, (performCommandSet P [n, value] p io).outputs = o :: l ∧
      (o.opening = .warning ↔ item.pw = []) := by
  obtain ⟨o, l, houtputs, hopening⟩ := set_outputs_eq P io hfind value
  by_cases hpw : item.pw = []
  · rw [pwWarning, if_pos hpw] at houtputs
    exact ⟨.report .emptyPw, o :: l, houtputs, iff_of_true rfl hpw⟩
  · rw [pwWarning, if_neg hpw] at houtputs
    exact ⟨o, l, houtputs, iff_of_false hopening hpw⟩

variable (P io) in
/-- The first line of a set is the warning exactly when `pw` is empty. -/
theorem set_emptyPw_iff {n : Text} {item : Item} (hfind : p.findItem n = some item)
    (value : Text) :
    (∃ line rest, shownLines (performCommandSet P [n, value] p io).outputs = line :: rest ∧
      line.take 2 = Opening.warning.mark) ↔ item.pw = [] := by
  obtain ⟨o, l, houtputs, hopening⟩ := set_outputs_first P io hfind value
  obtain ⟨line, rest, hlines, hmark⟩ := head_shownLines o l
  rw [houtputs, ← hopening, hlines]
  constructor
  · rintro ⟨line', rest', heq, hmark'⟩
    obtain ⟨rfl, -⟩ := List.cons.inj heq
    exact Opening.mark_inj (hmark.symm.trans hmark')
  · intro h
    exact ⟨line, rest, rfl, h ▸ hmark⟩

/-- Texts that are shown alike are the same when both are empty or none is. -/
theorem eq_of_shownText {t t' : Text} (hempty : t = [] ↔ t' = [])
    (h : shownText t = shownText t') : t = t' := by
  by_cases ht : t = []
  · rw [ht, hempty.mp ht]
  · rwa [shownText, shownText, if_neg ht, if_neg (mt hempty.mpr ht)] at h

section Loaded

variable (hwf : p.WellFormed) (hwf' : p'.WellFormed) (hplain : PlainItems p)
  (hplain' : PlainItems p')

include hwf hwf' hplain hplain'

theorem SameSessions.shown (h : SameSessions P order order' name io p p') (n : Text) :
    (p.findItem n).map shownItem = (p'.findItem n).map shownItem := by
  cases hfind : p.findItem n with
  | some item =>
      obtain ⟨item', hfind', hitem⟩ := h.exists_shown hwf.items hwf'.items hplain hplain' hfind
      rw [hfind', Option.map_some, Option.map_some, hitem]
  | none =>
      cases hfind' : p'.findItem n with
      | none => rfl
      | some item' =>
          obtain ⟨item, hfound, -⟩ :=
            h.symm.exists_shown hwf'.items hwf.items hplain' hplain hfind'
          rw [hfind] at hfound
          cases hfound

/-- A name that is a word can be used in a get and a set, which tell whether `pr`
and `pw` are empty. -/
theorem SameSessions.seenAlike (h : SameSessions P order order' name io p p') :
    SeenAlike p p' := by
  refine ⟨h.shown hwf hwf' hplain hplain', fun n hn => ?_⟩
  have hitems := h.shown hwf hwf' hplain hplain' n
  cases hfind : p.findItem n with
  | none =>
      rw [hfind, Option.map_none, eq_comm, Option.map_eq_none_iff] at hitems
      rw [hitems]
  | some item =>
      rw [hfind, Option.map_some, eq_comm, Option.map_eq_some_iff] at hitems
      obtain ⟨item', hfind', hitem⟩ := hitems
      obtain ⟨hcategory, hdt, hdriver, hname, hpr, hpw⟩ := Item.mk.inj hitem
      have hget := (h.asked .get (show ∀ w ∈ [n], Statement.IsWord w by simpa using hn)).2
        (by rintro ⟨rest, ⟨⟩⟩)
      have hset := (h.asked .set (show ∀ w ∈ [n, n], Statement.IsWord w by simpa using hn)).2
        (by rintro ⟨rest, ⟨⟩⟩)
      simp only [performCommand] at hget hset
      have hprEmpty : item'.pr = [] ↔ item.pr = [] := by
        rw [← get_emptyPr_iff P io hn hfind', ← get_emptyPr_iff P io hn hfind, hget]
      have hpwEmpty : item'.pw = [] ↔ item.pw = [] := by
        rw [← set_emptyPw_iff P io hfind' n, ← set_emptyPw_iff P io hfind n, hset]
      rw [hfind', Option.map_some, Option.map_some]
      simp only [seenItem]
      rw [hcategory, hdt, hname, hdriver, eq_of_shownText hprEmpty hpr,
        eq_of_shownText hpwEmpty hpw]

theorem sameSessions_iff_seenAlike :
    SameSessions P order order' name io p p' ↔ SeenAlike p p' :=
  ⟨fun h => h.seenAlike hwf hwf' hplain hplain', fun h => h.sameSessions⟩

/-- Two loaded configurations give the same sessions exactly when they are seen
alike, which depends neither on the IO layer nor on the order of the listings. Then
the names offered by a completion are the same as well, and the sessions end at the
same line and leave the layer in the same state. -/
theorem sameSessions_iff :
    (SameSessions P order order' name io p p' ↔ SeenAlike p p') ∧
    (SeenAlike p p' → (∀ c, c ∈ p.itemKeys ↔ c ∈ p'.itemKeys) ∧ ∀ n input,
      (program P order p name n io input).1.world.io =
        (program P order' p' name n io input).1.world.io ∧
      (program P order p name n io input).1.term.running =
        (program P order' p' name n io input).1.term.running) := by
  refine ⟨sameSessions_iff_seenAlike hwf hwf' hplain hplain', fun h => ⟨fun c => ?_, ?_⟩⟩
  · rw [hwf.itemKeys, hwf'.itemKeys]
    exact mem_keySet_iff_of_shown h.shown c
  · intro n input
    obtain ⟨hio, hup⟩ := h.after P order order' io input n
    obtain ⟨ht, -⟩ := program_tracks P order p name n io input
    obtain ⟨ht', -⟩ := program_tracks P order' p' name n io input
    refine ⟨?_, ?_⟩
    · rw [ht.world, ht'.world]
      exact hio
    · rw [ht.running, ht'.running]
      exact hup

end Loaded

end TellingApart

section Sample

/-- One integer item with a driver. -/
def drivenItem (drv : Int32) : Item := ⟨.io, .intVal, drv, lit "a", lit "p", []⟩

def drivenParser (drv : Int32) : IoParser := { toTables := tabulate [] [drivenItem drv] }

theorem findItem_drivenParser (drv : Int32) (n : Text) :
    (drivenParser drv).findItem n = if lit "a" = n then some (drivenItem drv) else none := by
  refine (find_indexBy_empty Item.name [drivenItem drv] n).trans ?_
  by_cases hn : lit "a" = n <;> simp [drivenItem, hn]

/-- No session shows which negative driver an item has. -/
theorem sameSessions_drivenParser :
    SameSessions memoryPlatform (IterationOrder.latestFirst Text) (IterationOrder.latestFirst Text)
      (lit "t") ∅ (drivenParser (-1)) (drivenParser (-7)) := by
  have hplain : ∀ drv, PlainItems (drivenParser drv) := by
    intro drv n item hfind
    rw [findItem_drivenParser, Option.ite_none_right_eq_some] at hfind
    obtain rfl := Option.some.inj hfind.2
    exact ⟨(by decide : Plain (lit "a")), (by decide : Plain (lit "p")), (by decide : Plain [])⟩
  refine (sameSessions_iff (wellFormed_tabulate [] [drivenItem (-1)])
    (wellFormed_tabulate [] [drivenItem (-7)]) (hplain (-1)) (hplain (-7))).1.mpr ⟨?_, ?_⟩
  · intro n
    rw [findItem_drivenParser, findItem_drivenParser]
    by_cases hn : lit "a" = n
    · rw [if_pos hn, if_pos hn]
      decide
    · rw [if_neg hn, if_neg hn]
  · intro n _
    rw [findItem_drivenParser, findItem_drivenParser]
    by_cases hn : lit "a" = n
    · rw [if_pos hn, if_pos hn]
      decide
    · rw [if_neg hn, if_neg hn]

end Sample

section Documents

variable {p p' : IoParser} {ds ds' : List Driver} {is is' : List Item}

/-- The items that can be named on a line. -/
def named (is : List Item) : List Item := is.filter fun i => decide (Statement.IsWord i.name)

/-- Parsers are seen alike exactly when edits connect their entries as they are
shown, and those that can be named as they are seen. -/
theorem seenAlike_tabulate_iff (h : p.toTables = tabulate ds is)
    (h' : p'.toTables = tabulate ds' is') :
    SeenAlike p p' ↔ Edits Item.name (is.map shownItem) (is'.map shownItem) ∧
      Edits Item.name ((named is).map seenItem) ((named is').map seenItem) := by
  have hshown : ∀ i, (shownItem i).name = i.name := fun i => rfl
  have hseen : ∀ i, (seenItem i).name = i.name := fun i => rfl
  have hnamed : ∀ is n, ((named is).find? fun i => i.name = n) =
      if decide (Statement.IsWord n) then is.find? fun i => i.name = n else none := fun is n =>
    find?_filter_key (fun n => decide (Statement.IsWord n)) is n
  rw [edits_iff_find?_eq, edits_iff_find?_eq]
  simp only [find?_map_key hshown, find?_map_key hseen, hnamed, ← findItem_of_tabulate h,
    ← findItem_of_tabulate h']
  constructor
  · rintro ⟨hsame, hwords⟩
    refine ⟨hsame, fun n => ?_⟩
    by_cases hn : Statement.IsWord n
    · rw [if_pos (decide_eq_true hn), if_pos (decide_eq_true hn), hwords n hn]
    · simp [hn]
  · rintro ⟨hsame, hwords⟩
    refine ⟨hsame, fun n hn => ?_⟩
    have hword := hwords n
    rwa [if_pos (decide_eq_true hn), if_pos (decide_eq_true hn)] at hword

/-- Two documents give the same sessions, whatever was loaded before, exactly when
edits connect their item entries, up to what is not seen of them. The drivers do not
matter, nor the orders of the listings. -/
theorem documents_sameSessions_iff {P : Platform σ F} {order order' : IterationOrder Text}
    {name : Text} {io : σ} {parse parse' : XmlParse} {fs fs' : FileSystem} {q q' : Text}
    {doc doc' : List XmlNode} (h : Records doc ds is) (h' : Records doc' ds' is')
    (hdoc : readDocument parse fs (target p.filepath q) = some doc)
    (hdoc' : readDocument parse' fs' (target p'.filepath q') = some doc')
    (hplain : ∀ i ∈ is, PlainItem i) (hplain' : ∀ i ∈ is', PlainItem i) :
    SameSessions P order order' name io (p.reload parse fs q).1 (p'.reload parse' fs' q').1 ↔
      Edits Item.name (is.map shownItem) (is'.map shownItem) ∧
        Edits Item.name ((named is).map seenItem) ((named is').map seenItem) := by
  obtain ⟨-, htables⟩ := h.reload hdoc
  obtain ⟨-, htables'⟩ := h'.reload hdoc'
  rw [← seenAlike_tabulate_iff htables htables']
  apply sameSessions_iff_seenAlike
  · rw [htables]
    exact wellFormed_tabulate ds is
  · rw [htables']
    exact wellFormed_tabulate ds' is'
  · intro n item hfind
    rw [findItem_of_tabulate htables] at hfind
    exact hplain item (List.mem_of_find?_eq_some hfind)
  · intro n item hfind
    rw [findItem_of_tabulate htables'] at hfind
    exact hplain' item (List.mem_of_find?_eq_some hfind)

/-- No session shows that an entry behind one of its name is dropped, that two
entries are exchanged, or that one of them has another negative driver. -/
theorem documents_sameSessions_sample :
    SameSessions memoryPlatform (IterationOrder.latestFirst Text) (IterationOrder.latestFirst Text)
      (lit "t") ∅
      (IoParser.reload (writtenParse (confDocument [] [itemA, itemB, laterA]))
        (writtenFs (confDocument [] [itemA, itemB, laterA])) (lit "conf.xml") {}).1
      (IoParser.reload (writtenParse (confDocument [] [itemB, { itemA with driverId := -7 }]))
        (writtenFs (confDocument [] [itemB, { itemA with driverId := -7 }]))
        (lit "conf.xml") {}).1 := by
  have hshown : [itemB, { itemA with driverId := -7 }].map shownItem =
      [itemB, itemA].map shownItem := by decide
  have hseen : (named [itemB, { itemA with driverId := -7 }]).map seenItem =
      (named [itemB, itemA]).map seenItem := by decide +kernel
  have hplain : ∀ i ∈ [itemA, itemB, laterA], PlainItem i := by
    intro i hi
    simp only [List.mem_cons, List.not_mem_nil, or_false] at hi
    rcases hi with rfl | rfl | rfl <;> exact ⟨by decide, by decide, by decide⟩
  have hplain' : ∀ i ∈ [itemB, { itemA with driverId := -7 }], PlainItem i := by
    intro i hi
    simp only [List.mem_cons, List.not_mem_nil, or_false] at hi
    rcases hi with rfl | rfl <;> exact ⟨by decide, by decide, by decide⟩
  refine (documents_sameSessions_iff (records_confDocument [] [itemA, itemB, laterA])
    (records_confDocument [] [itemB, { itemA with driverId := -7 }]) (readDocument_written _ _)
    (readDocument_written _ _) hplain hplain').mpr ⟨?_, ?_⟩
  · rw [hshown]
    exact edits_laterA.map fun i => rfl
  · rw [hseen]
    exact (edits_laterA.filter fun n => decide (Statement.IsWord n)).map fun i => rfl

end Documents

end IoEmulator.CtfIo
