import IoEmulator.CtfIo.Ledger
import IoEmulator.Numerals
import IoEmulator.Foundation.Fields

/-!
# What the text on the console tells

Both streams go to one console. Its text determines what was reported, each read
and each write with its item, its parameter and its value, when the stored names
and parameters have no closing bracket and no line break in them, and what the
layer delivers has no line break. Of an item, it determines what `pretty_print`
shows, and of an error what was said, but not whether the loop said it.
-/

namespace IoEmulator.CtfIo

open Conf Termctl Foundation.Enumeration Foundation.FirstWinsMap Foundation.Fields
open Foundation.InterruptibleLoop

variable {σ F : Type}

/-- The character `]`. -/
def bracket : CChar := ⟨93, by decide⟩

/-- The line break that `std::endl` writes. -/
def newline : CChar := ⟨10, by decide⟩

/-- What stands on the console. -/
def consoleText (console : List Line) : Text := ended newline (console.map Line.text)

/-- The lines on the console, the last of which has not been ended yet. -/
def consoleLines (console : List Line) : List Text := (consoleText console).splitOn newline

theorem consoleLines_eq (console : List Line) :
    consoleLines console = (console.map Line.text).flatMap (List.splitOn newline) ++ [[]] :=
  splitOn_ended newline _

section Items

/-- Neither a closing bracket nor a line break. -/
def Plain (t : Text) : Prop := bracket ∉ t ∧ newline ∉ t

instance : DecidablePred Plain := fun _ => inferInstanceAs (Decidable (_ ∧ _))

/-- Neither of them in what is printed of the item. -/
structure PlainItem (item : Item) : Prop where
  name : Plain item.name
  pr : Plain item.pr
  pw : Plain item.pw

theorem newline_notMem {t : Text} (h : ∀ c ∈ t, isspace c = false) : newline ∉ t :=
  fun hmem => absurd (h newline hmem) (by decide)

/-- How an empty parameter is shown. -/
def shownText (t : Text) : Text := if t = [] then lit "Nil" else t

/-- One driver for all negative ones. -/
def shownDriver (n : Int32) : Int32 := if 0 ≤ n.toInt then n else -1

def driverText (n : Int32) : Text := if 0 ≤ n.toInt then intToString n else lit "Nil"

/-- The item as `pretty_print` shows it. -/
def shownItem (item : Item) : Item :=
  { item with
    driverId := shownDriver item.driverId
    pr := shownText item.pr
    pw := shownText item.pw }

/-- The fields of the line that `pretty_print` writes. -/
def itemFields (item : Item) : List (Text × Text) := [
  (lit "[name: ", item.name),
  (lit "[dt: ", Item.dataTypeToStr item.dt),
  (lit "[cat: ", if item.category = .io then lit "IO" else lit "Memory"),
  (lit "[drv: ", driverText item.driverId),
  (lit "[pr: ", shownText item.pr),
  (lit "[pw: ", shownText item.pw)]

theorem prettyPrint_eq_closed (item : Item) :
    item.prettyPrint = closed bracket (itemFields item) := by
  have hbracket : lit "]" = [bracket] := rfl
  unfold Item.prettyPrint
  simp only [closed, itemFields, driverText, shownText, hbracket, List.flatMap_cons,
    List.flatMap_nil, List.append_nil, List.append_assoc]

theorem plain_intToString (n : Int32) : Plain (intToString n) := by
  refine ⟨?_, newline_notMem (denotes_intToString n).isspace_eq_false⟩
  obtain ⟨sign, digits, hn, -, hdigits, hsign⟩ := denotes_intToString n
  rw [hn, List.mem_append, not_or]
  constructor
  · rcases hsign with ⟨rfl | rfl, -⟩ | ⟨rfl, -⟩ <;> decide
  · intro hmem
    have hdigit := hdigits bracket hmem
    revert hdigit
    decide

theorem plain_shownText {t : Text} (ht : Plain t) : Plain (shownText t) := by
  unfold shownText
  split
  · decide
  · exact ht

theorem PlainItem.fields {item : Item} (h : PlainItem item) :
    ∀ field ∈ itemFields item, Plain field.2 := by
  intro field hfield
  simp only [itemFields, List.mem_cons, List.not_mem_nil, or_false] at hfield
  rcases hfield with rfl | rfl | rfl | rfl | rfl | rfl
  · exact h.name
  · cases item.dt <;> decide
  · cases item.category <;> decide
  · dsimp only [driverText]
    split
    · exact plain_intToString _
    · decide
  · exact plain_shownText h.pr
  · exact plain_shownText h.pw

theorem PlainItem.newline_notMem {item : Item} (h : PlainItem item) :
    newline ∉ item.prettyPrint := by
  rw [prettyPrint_eq_closed]
  refine notMem_closed (by decide) ?_ fun field hfield => (h.fields field hfield).2
  have hlabels : ∀ label ∈ [lit "[name: ", lit "[dt: ", lit "[cat: ", lit "[drv: ", lit "[pr: ",
      lit "[pw: "], newline ∉ label := by decide
  exact fun field hfield => hlabels field.1 (List.mem_map_of_mem (f := Prod.fst) hfield)

theorem dataTypeToStr_inj {dt dt' : DataType}
    (h : Item.dataTypeToStr dt = Item.dataTypeToStr dt') : dt = dt' := by
  revert h
  cases dt <;> cases dt' <;> decide

/-- A driver is read back from its text, up to the sign. -/
theorem shownDriver_eq_of_text {n n' : Int32} (h : driverText n = driverText n') :
    shownDriver n = shownDriver n' := by
  have hnil : ∀ m, intToString m ≠ lit "Nil" := by
    intro m hm
    have hread := stoi_intToString m
    rw [hm] at hread
    cases hread
  unfold driverText at h
  unfold shownDriver
  split at h
  · split at h
    · have hread := stoi_intToString n
      rw [h, stoi_intToString] at hread
      rw [if_pos ‹_›, if_pos ‹_›, Except.ok.inj hread]
    · exact absurd h (hnil n)
  · split at h
    · exact absurd h.symm (hnil n')
    · rw [if_neg ‹_›, if_neg ‹_›]

theorem itemFields_shownItem (item : Item) : itemFields (shownItem item) = itemFields item := by
  have htext : ∀ t, shownText (shownText t) = shownText t := by
    intro t
    unfold shownText
    split
    · rfl
    · rfl
  have hdriver : ∀ n, driverText (shownDriver n) = driverText n := by
    intro n
    unfold driverText shownDriver
    split
    · rfl
    · rfl
  simp only [itemFields, shownItem, htext, hdriver]
  rfl

/-- The line of an item tells what is shown of it. -/
theorem prettyPrint_eq_iff {item item' : Item} (h : PlainItem item) (h' : PlainItem item') :
    item.prettyPrint = item'.prettyPrint ↔ shownItem item = shownItem item' := by
  rw [prettyPrint_eq_closed, prettyPrint_eq_closed]
  constructor
  · intro heq
    have hlabels : (itemFields item).map Prod.fst = (itemFields item').map Prod.fst := rfl
    have hfields := (closed_append_inj hlabels (fun field hfield => (h.fields field hfield).1)
      (fun field hfield => (h'.fields field hfield).1) (congrArg (· ++ []) heq)).1
    simp only [itemFields, List.cons.injEq, Prod.mk.injEq, true_and, and_true] at hfields
    obtain ⟨hname, hdt, hcategory, hdriver, hpr, hpw⟩ := hfields
    have hcategory' : item.category = item'.category := by
      revert hcategory
      cases item.category <;> cases item'.category <;> decide
    simp only [shownItem, hname, dataTypeToStr_inj hdt, hcategory',
      shownDriver_eq_of_text hdriver, hpr, hpw]
  · intro hshown
    rw [← itemFields_shownItem item, hshown, itemFields_shownItem]

end Items

section Reports

/-- Neither of the two characters in the item, the name and the parameter of a
report. -/
def PlainReport : Report → Prop
  | .okRead name prw _ | .failRead name prw | .okWrite name prw _ | .failWrite name prw _ =>
      Plain name ∧ Plain prw
  | .info item => PlainItem item
  | .ioError _ | .emptyPw => True

/-- What a report tells: of an item, what is shown of it. -/
def shownReport : Report → Report
  | .info item => .info (shownItem item)
  | r => r

/-- How a line can begin. -/
inductive Opening where
  | ok
  | fail
  | item
  | error
  | warning
  | help
  deriving DecidableEq

/-- The first two characters. -/
def Opening.mark : Opening → Text
  | .ok => lit "[O"
  | .fail => lit "[F"
  | .item => lit "[n"
  | .error => lit "Er"
  | .warning => lit "Wa"
  | .help => lit "Av"

theorem Opening.mark_inj {o o' : Opening} (h : o.mark = o'.mark) : o = o' := by
  revert h
  cases o <;> cases o' <;> decide

def reportOpening : Report → Opening
  | .okRead .. | .okWrite .. => .ok
  | .failRead .. | .failWrite .. => .fail
  | .info _ => .item
  | .ioError _ => .error
  | .emptyPw => .warning

theorem take_two_line (r : Report) : r.line.text.take 2 = (reportOpening r).mark := by
  cases r with
  | info item =>
      rw [Report.line, prettyPrint_eq_closed]
      rfl
  | _ => rfl

/-- Everything is read back from a verdict, as long as what is said behind the last
bracket begins differently whenever it differs. -/
theorem verdict_inj {label name name' prw prw' value value' : Text} (said said' : Text)
    (hsaid : 2 ≤ said.length ∧ 2 ≤ said'.length ∧ (said.take 2 = said'.take 2 → said = said'))
    (h : Plain name ∧ Plain prw) (h' : Plain name' ∧ Plain prw')
    (heq : label ++ name ++ lit "][" ++ prw ++ (bracket :: said) ++ value =
      label ++ name' ++ lit "][" ++ prw' ++ (bracket :: said') ++ value') :
    name = name' ∧ prw = prw' ∧ said = said' ∧ value = value' := by
  have hmiddle : lit "][" = bracket :: lit "[" := rfl
  have hclosed : ∀ n p t v : Text, label ++ n ++ lit "][" ++ p ++ (bracket :: t) ++ v =
      closed bracket [(label, n), (lit "[", p)] ++ (t ++ v) := fun n p t v => by
    simp [closed, hmiddle]
  have hlabels : [(label, name), (lit "[", prw)].map Prod.fst =
      [(label, name'), (lit "[", prw')].map Prod.fst := rfl
  rw [hclosed, hclosed] at heq
  obtain ⟨hfields, htail⟩ := closed_append_inj hlabels (by simpa using ⟨h.1.1, h.2.1⟩)
    (by simpa using ⟨h'.1.1, h'.2.1⟩) heq
  simp only [List.cons.injEq, Prod.mk.injEq, true_and, and_true] at hfields
  obtain ⟨hlong, hlong', hdiffer⟩ := hsaid
  have htake := congrArg (List.take 2) htail
  rw [List.take_append_of_le_length hlong, List.take_append_of_le_length hlong'] at htake
  obtain rfl := hdiffer htake
  exact ⟨hfields.1, hfields.2, rfl, List.append_cancel_left htail⟩

/-- What is said of a read that failed. -/
def unreadable : Text := lit " could not be read, please might need to set a value first"

theorem failRead_line (name pr : Text) : (Report.failRead name pr).line.text =
    lit "[FAIL][" ++ name ++ lit "][" ++ pr ++ (bracket :: unreadable) ++ [] := by
  rw [List.append_nil]
  rfl

/-- The text of a report tells the report, up to what is not shown of an item. -/
theorem shownReport_eq_of_text {r r' : Report} (h : PlainReport r) (h' : PlainReport r')
    (heq : r.line.text = r'.line.text) : shownReport r = shownReport r' := by
  have hopening : reportOpening r = reportOpening r' := by
    apply Opening.mark_inj
    rw [← take_two_line, heq, take_two_line]
  cases r with
  | ioError what =>
      cases r' with
      | ioError what' => rw [List.append_cancel_left heq]
      | _ => cases hopening
  | emptyPw =>
      cases r' with
      | emptyPw => rfl
      | _ => cases hopening
  | info item =>
      cases r' with
      | info item' => exact congrArg Report.info ((prettyPrint_eq_iff h h').mp heq)
      | _ => cases hopening
  | okRead name pr value =>
      cases r' with
      | okRead name' pr' value' =>
          obtain ⟨rfl, rfl, -, rfl⟩ := verdict_inj (lit " read: ") (lit " read: ") (by decide) h h'
            heq
          rfl
      | okWrite name' prw value' =>
          obtain ⟨-, -, hsaid, -⟩ := verdict_inj (lit " read: ") (lit " write: ") (by decide) h h'
            heq
          exact absurd hsaid (by decide)
      | _ => cases hopening
  | okWrite name prw value =>
      cases r' with
      | okRead name' pr value' =>
          obtain ⟨-, -, hsaid, -⟩ := verdict_inj (lit " write: ") (lit " read: ") (by decide) h h'
            heq
          exact absurd hsaid (by decide)
      | okWrite name' prw' value' =>
          obtain ⟨rfl, rfl, -, rfl⟩ := verdict_inj (lit " write: ") (lit " write: ") (by decide)
            h h' heq
          rfl
      | _ => cases hopening
  | failRead name pr =>
      cases r' with
      | failRead name' pr' =>
          rw [failRead_line, failRead_line] at heq
          obtain ⟨rfl, rfl, -, -⟩ := verdict_inj unreadable unreadable (by decide) h h'
            heq
          rfl
      | failWrite name' prw value =>
          rw [failRead_line] at heq
          obtain ⟨-, -, hsaid, -⟩ := verdict_inj unreadable (lit " failed to write: ") (by decide)
            h h' heq
          exact absurd hsaid (by decide)
      | _ => cases hopening
  | failWrite name prw value =>
      cases r' with
      | failRead name' pr =>
          rw [failRead_line] at heq
          obtain ⟨-, -, hsaid, -⟩ := verdict_inj (lit " failed to write: ") unreadable (by decide)
            h h' heq
          exact absurd hsaid (by decide)
      | failWrite name' prw' value' =>
          obtain ⟨rfl, rfl, -, rfl⟩ := verdict_inj (lit " failed to write: ")
            (lit " failed to write: ") (by decide) h h' heq
          rfl
      | _ => cases hopening

/-- The line of a report does not depend on what is not shown of an item. -/
theorem line_shownReport (r : Report) : (shownReport r).line = r.line := by
  cases r with
  | info item =>
      simp only [shownReport, Report.line, prettyPrint_eq_closed, itemFields_shownItem]
  | _ => rfl

end Reports

section Outputs

/-- How the first line of an output begins. -/
def Output.opening : Output → Opening
  | .report r => reportOpening r
  | .helpText => .help
  | .error _ => .error

def Output.texts (o : Output) : List Text := o.lines.map Line.text

theorem map_text_flatMap_lines (l : List Output) :
    (l.flatMap Output.lines).map Line.text = l.flatMap Output.texts := List.map_flatMap

theorem errorLine_eq (e : Exn) :
    Shell.errorLine e = lit "Error: " ++ e.what.getD (lit "unexpected error") := by
  cases e <;> rfl

theorem exists_texts_eq (o : Output) :
    ∃ text rest, o.texts = text :: rest ∧ text.take 2 = o.opening.mark := by
  cases o with
  | report r => exact ⟨_, _, rfl, take_two_line r⟩
  | helpText => exact ⟨_, _, rfl, rfl⟩
  | error e => exact ⟨_, _, rfl, by rw [errorLine_eq]; rfl⟩

/-- What the text of an output tells. The loop and the handlers of the IO calls
complain alike. -/
def shownOutput : Output → Output
  | .report r => .report (shownReport r)
  | .helpText => .helpText
  | .error e => .report (.ioError (e.what.getD (lit "unexpected error")))

/-- No line break in an output, and no closing bracket in what it puts between
brackets. -/
structure PlainOutput (o : Output) : Prop where
  unbroken : ∀ text ∈ o.texts, newline ∉ text
  report : ∀ r, o = .report r → PlainReport r

/-- The text of an output does not depend on what is not shown. -/
theorem texts_shownOutput (o : Output) : (shownOutput o).texts = o.texts := by
  cases o with
  | report r => exact congrArg (fun line : Line => [line.text]) (line_shownReport r)
  | helpText => rfl
  | error e => exact congrArg (fun text => [text]) (errorLine_eq e).symm

/-- An output is the help text, or is shown as a report. -/
theorem shown_as_report {o : Output} (h : PlainOutput o) :
    o = .helpText ∨ ∃ r, PlainReport r ∧ o.texts = [r.line.text] ∧
      shownOutput o = .report (shownReport r) := by
  cases o with
  | helpText => exact Or.inl rfl
  | report r => exact Or.inr ⟨r, h.report r rfl, rfl, rfl⟩
  | error e =>
      refine Or.inr ⟨.ioError (e.what.getD (lit "unexpected error")), trivial, ?_, rfl⟩
      exact congrArg (fun text => [text]) (errorLine_eq e)

/-- An output is read off the lines it begins, up to what is not shown. -/
theorem shownOutput_of_texts {o o' : Output} {rest rest' : List Text} (h : PlainOutput o)
    (h' : PlainOutput o') (heq : o.texts ++ rest = o'.texts ++ rest') :
    shownOutput o = shownOutput o' ∧ rest = rest' := by
  have hopening : o.opening = o'.opening := by
    obtain ⟨text, more, htexts, hmark⟩ := exists_texts_eq o
    obtain ⟨text', more', htexts', hmark'⟩ := exists_texts_eq o'
    rw [htexts, htexts'] at heq
    apply Opening.mark_inj
    rw [← hmark, ← hmark', (List.cons.inj heq).1]
  rcases shown_as_report h with rfl | ⟨r, hr, htexts, hshown⟩
  · cases o' with
    | helpText => exact ⟨rfl, List.append_cancel_left heq⟩
    | error e => cases hopening
    | report r' => cases r' <;> cases hopening
  · rcases shown_as_report h' with rfl | ⟨r', hr', htexts', hshown'⟩
    · cases o with
      | helpText => cases hshown
      | error e => cases hopening
      | report r => cases r <;> cases hopening
    · rw [htexts, htexts'] at heq
      obtain ⟨hline, hrest⟩ := List.cons.inj heq
      rw [hshown, hshown', shownReport_eq_of_text hr hr' hline]
      exact ⟨rfl, hrest⟩

/-- Plain outputs are read off the text on the console, up to what is not shown. -/
theorem consoleText_eq_iff {l l' : List Output} (h : ∀ o ∈ l, PlainOutput o)
    (h' : ∀ o ∈ l', PlainOutput o) :
    consoleText (l.flatMap Output.lines) = consoleText (l'.flatMap Output.lines) ↔
      l.map shownOutput = l'.map shownOutput := by
  have hlines : ∀ l : List Output, (∀ o ∈ l, PlainOutput o) →
      consoleLines (l.flatMap Output.lines) = l.flatMap Output.texts ++ [[]] := by
    intro l hl
    rw [consoleLines_eq, map_text_flatMap_lines, flatMap_splitOn]
    intro text htext
    obtain ⟨o, ho, htext⟩ := List.mem_flatMap.mp htext
    exact (hl o ho).unbroken text htext
  have hshown : ∀ l : List Output, l.flatMap Output.texts =
      (l.map shownOutput).flatMap Output.texts := fun l => by
    rw [List.flatMap_map]
    simp only [texts_shownOutput]
  constructor
  · intro heq
    have hsplit : consoleLines (l.flatMap Output.lines) = consoleLines (l'.flatMap Output.lines) :=
      congrArg (List.splitOn newline) heq
    rw [hlines l h, hlines l' h'] at hsplit
    refine map_eq_of_flatMap_eq (fun o => ?_)
      (fun o o' rest rest' ho ho' => shownOutput_of_texts ho ho') h h'
      (List.append_cancel_right hsplit)
    obtain ⟨text, rest, htexts, -⟩ := exists_texts_eq o
    rw [htexts]
    exact List.cons_ne_nil text rest
  · intro heq
    rw [consoleText, consoleText, map_text_flatMap_lines, map_text_flatMap_lines, hshown l, heq,
      ← hshown l']

end Outputs

section Layers

/-- No line break in the texts behind a value. -/
def UnbrokenRaw (raw : Raw F) : Prop := ∀ s, raw = .string s → newline ∉ s

/-- No line break in what an exception says. -/
def UnbrokenExn (e : Exn) : Prop := ∀ what ∈ e.what, newline ∉ what

theorem unbrokenExn {e : Exn} {what : Text} (hwhat : e.what = some what) (h : newline ∉ what) :
    UnbrokenExn e := by
  intro what' hwhat'
  rw [hwhat] at hwhat'
  exact Option.some.inj hwhat' ▸ h

/-- A call with a value in `ok` keeps the layer in `I`, throws without a line break,
and delivers values in `ok'`. -/
def KeepsUnbroken {α β : Type} (I : σ → Prop) (ok : α → Prop) (ok' : β → Prop)
    (f : Text → α → σ → IoAnswer σ β) : Prop :=
  ∀ name a io, I io → ok a → I (f name a io).io ∧
    (∀ what, (f name a io).result = .error what → newline ∉ what) ∧
    ((f name a io).success = true → ok' (f name a io).out)

/-- Texts without line breaks are all that a layer in `I` delivers, as long as it is
given such texts only. -/
structure Unbroken (I : σ → Prop) (P : Platform σ F) : Prop where
  toString : ∀ x, newline ∉ P.toString x
  stod : ∀ s e, P.stod s = .error e → UnbrokenExn e
  readInt : KeepsUnbroken I (fun _ => True) (fun _ => True) P.ioReadInt
  readDouble : KeepsUnbroken I (fun _ => True) (fun _ => True) P.ioReadDouble
  readString : KeepsUnbroken I (newline ∉ ·) (newline ∉ ·) P.ioReadString
  writeInt : KeepsUnbroken I (fun _ => True) (fun _ => True) P.ioWriteInt
  writeDouble : KeepsUnbroken I (fun _ => True) (fun _ => True) P.ioWriteDouble
  writeString : KeepsUnbroken I (newline ∉ ·) (fun _ => True) P.ioWriteString

variable {I : σ → Prop} {P : Platform σ F}

/-- No line break in the values that are held. -/
def HoldsUnbroken (contents : σ → Values F) (io : σ) : Prop :=
  ∀ key raw, contents io key = some raw → UnbrokenRaw raw

theorem unbrokenRaw_int (n : Int32) : UnbrokenRaw (.int n : Raw F) := fun s hs => by cases hs

theorem unbrokenRaw_double (x : F) : UnbrokenRaw (.double x) := fun s hs => by cases hs

section Stores

variable {contents : σ → Values F} {α : Type} {kind : Kind} {raw : α → Raw F} {ok : α → Prop}

/-- A read of a reliable layer delivers what is held. -/
theorem ReadsStore.keepsUnbroken {f : Text → α → σ → IoAnswer σ α}
    (h : ReadsStore contents kind raw f) (hanswers : AnswersAll contents kind f)
    (hok : ∀ a, UnbrokenRaw (raw a) → ok a) : KeepsUnbroken (HoldsUnbroken contents) ok ok f := by
  intro name old io hio _
  obtain ⟨hsame, hout⟩ := h name old io
  refine ⟨by rwa [HoldsUnbroken, hsame], fun what hwhat => ?_, fun hsuccess => ?_⟩
  · rw [hanswers name old io] at hwhat
    cases hwhat
  · exact hok _ (hio _ _ (hout hsuccess))

/-- After a write it holds what was written, and what it held. -/
theorem WritesStore.keepsUnbroken {f : Text → α → σ → IoAnswer σ Unit}
    (h : WritesStore contents kind raw f) (haccepts : AcceptsAll f)
    (hok : ∀ a, ok a → UnbrokenRaw (raw a)) :
    KeepsUnbroken (HoldsUnbroken contents) ok (fun _ => True) f := by
  intro name a io hio ha
  have hupdate := h name a io
  rw [IoAnswer.success, haccepts name a io, if_pos rfl] at hupdate
  refine ⟨fun key held hheld => ?_, fun what hwhat => ?_, fun _ => trivial⟩
  · rw [hupdate] at hheld
    by_cases hkey : key = (kind, name)
    · rw [hkey, Function.update_self] at hheld
      exact Option.some.inj hheld ▸ hok a ha
    · rw [Function.update_of_ne hkey] at hheld
      exact hio key held hheld
  · rw [haccepts name a io] at hwhat
    cases hwhat

/-- A reliable layer delivers what it holds. -/
theorem Reliable.unbroken (h : Reliable contents P) (htoString : ∀ x, newline ∉ P.toString x)
    (hstod : ∀ s e, P.stod s = .error e → UnbrokenExn e) :
    Unbroken (HoldsUnbroken contents) P where
  toString := htoString
  stod := hstod
  readInt := h.readInt.keepsUnbroken h.answersInt fun _ _ => trivial
  readDouble := h.readDouble.keepsUnbroken h.answersDouble fun _ _ => trivial
  readString := h.readString.keepsUnbroken h.answersString fun s hs => hs s rfl
  writeInt := h.writeInt.keepsUnbroken h.acceptsInt fun n _ => unbrokenRaw_int n
  writeDouble := h.writeDouble.keepsUnbroken h.acceptsDouble fun x _ => unbrokenRaw_double x
  writeString := h.writeString.keepsUnbroken h.acceptsString fun s hs t ht => by
    rwa [← Raw.string.inj ht]

end Stores

variable (h : Unbroken I P)

include h

theorem Unbroken.display {raw : Raw F} (hraw : UnbrokenRaw raw) : newline ∉ raw.display P := by
  cases raw with
  | int n => exact (plain_intToString n).2
  | double x => exact h.toString x
  | string s => exact hraw s rfl

theorem Unbroken.read {v : Variant F} (hv : UnbrokenRaw v.var) {io : σ} (hio : I io) :
    I (v.read P io).io ∧ (∀ what, (v.read P io).result = .error what → newline ∉ what) ∧
      ((v.read P io).success = true → newline ∉ (v.read P io).out.var.display P) := by
  obtain ⟨raw, param⟩ := v
  cases raw with
  | int n =>
      obtain ⟨hio', hwhat, -⟩ := h.readInt param n io hio trivial
      exact ⟨hio', hwhat, fun _ => (plain_intToString _).2⟩
  | double x =>
      obtain ⟨hio', hwhat, -⟩ := h.readDouble param x io hio trivial
      exact ⟨hio', hwhat, fun _ => h.toString _⟩
  | string s => exact h.readString param s io hio (hv s rfl)

theorem Unbroken.write {v : Variant F} (hv : UnbrokenRaw v.var) {io : σ} (hio : I io) :
    I (v.write P io).io ∧ ∀ what, (v.write P io).result = .error what → newline ∉ what := by
  obtain ⟨raw, param⟩ := v
  cases raw with
  | int n =>
      obtain ⟨hio', hwhat, -⟩ := h.writeInt param n io hio trivial
      exact ⟨hio', hwhat⟩
  | double x =>
      obtain ⟨hio', hwhat, -⟩ := h.writeDouble param x io hio trivial
      exact ⟨hio', hwhat⟩
  | string s =>
      obtain ⟨hio', hwhat, -⟩ := h.writeString param s io hio (hv s rfl)
      exact ⟨hio', hwhat⟩

/-- Conversion delivers the text it was given, or complains in words of its own. -/
theorem Unbroken.convert (type : DataType) {val : Text} (hval : newline ∉ val) :
    (∀ raw, convert P type val = .ok raw → UnbrokenRaw raw) ∧
      ∀ e, convert P type val = .error e → UnbrokenExn e := by
  cases type with
  | intVal =>
      constructor
      · intro raw hraw
        obtain ⟨n, -, rfl⟩ := map_eq_ok_iff.mp hraw
        exact unbrokenRaw_int n
      · intro e he
        rw [CtfIo.convert, map_eq_error_iff] at he
        split at he
        · cases he
        · rcases stoi_error he with rfl | rfl <;> exact unbrokenExn rfl (by decide)
  | doubleVal =>
      constructor
      · intro raw hraw
        obtain ⟨x, -, rfl⟩ := map_eq_ok_iff.mp hraw
        exact unbrokenRaw_double x
      · intro e he
        rw [CtfIo.convert, map_eq_error_iff] at he
        split at he
        · cases he
        · exact h.stod val e he
  | stringVal =>
      constructor
      · intro raw hraw
        obtain rfl := Except.ok.inj hraw
        intro s hs
        exact Raw.string.inj hs ▸ hval
      · intro e he
        cases he
  | unknown =>
      constructor
      · intro raw hraw
        cases hraw
      · intro e he
        obtain rfl := Except.error.inj he
        exact unbrokenExn rfl (by decide)

end Layers

section Sessions

/-- The items that `find_item` finds can be printed. -/
def PlainItems (parser : IoParser) : Prop :=
  ∀ n item, parser.findItem n = some item → PlainItem item

theorem plainOutput_report {r : Report} (h : PlainReport r) (hline : newline ∉ r.line.text) :
    PlainOutput (.report r) where
  unbroken := List.forall_mem_singleton.mpr hline
  report _ heq := Output.report.inj heq ▸ h

theorem plainOutput_error {e : Exn} (h : UnbrokenExn e) : PlainOutput (.error e) where
  unbroken := by
    refine List.forall_mem_singleton.mpr ?_
    have hwhat : newline ∉ e.what.getD (lit "unexpected error") := by
      cases hwhat : e.what with
      | none => decide
      | some what => exact h what hwhat
    change newline ∉ Shell.errorLine e
    rw [errorLine_eq, List.mem_append, not_or]
    exact ⟨by decide, hwhat⟩
  report r hr := by cases hr

theorem plainOutput_warning : PlainOutput (.report .emptyPw) :=
  plainOutput_report trivial (by decide)

/-- What a command prints is plain when its last report is, and what the layer has
thrown. -/
theorem plain_outputs {α : Type} {a : IoAnswer σ α} {warning : List Report}
    (hwarning : warning = [] ∨ warning = [.emptyPw])
    (hwhat : ∀ what, a.result = .error what → newline ∉ what) {last : Report}
    (hlast : PlainOutput (.report last)) (io : σ) :
    ∀ o ∈ (Performed.mk io (warning ++ a.complaint ++ [last]) (.ok ())).outputs,
      PlainOutput o := by
  have hcomplaint : ∀ r ∈ a.complaint, PlainOutput (.report r) := by
    intro r hr
    unfold IoAnswer.complaint at hr
    split at hr
    · cases hr
    · rename_i what hresult
      obtain rfl := List.mem_singleton.mp hr
      refine plainOutput_report trivial ?_
      change newline ∉ lit "Error: " ++ what
      rw [List.mem_append, not_or]
      exact ⟨by decide, hwhat what hresult⟩
  intro o ho
  simp only [Performed.outputs, thrown, List.append_nil, List.mem_map, List.mem_append,
    List.mem_singleton] at ho
  obtain ⟨r, (hr | hr) | rfl, rfl⟩ := ho
  · rcases hwarning with rfl | rfl
    · cases hr
    · obtain rfl := List.mem_singleton.mp hr
      exact plainOutput_warning
  · exact hcomplaint r hr
  · exact hlast

theorem plain_outputs_error {warning : List Report}
    (hwarning : warning = [] ∨ warning = [.emptyPw]) {e : Exn} (he : UnbrokenExn e) (io : σ) :
    ∀ o ∈ (Performed.mk io warning (.error e)).outputs, PlainOutput o := by
  intro o ho
  rcases List.mem_append.mp ho with ho | ho
  · rcases hwarning with rfl | rfl
    · cases ho
    · obtain rfl := List.mem_singleton.mp ho
      exact plainOutput_warning
  · obtain rfl := List.mem_singleton.mp ho
    exact plainOutput_error he

theorem unbroken_invalidItem {name : Text} (h : newline ∉ name) :
    UnbrokenExn (invalidItem name) := by
  refine unbrokenExn rfl ?_
  simp only [List.mem_append, not_or]
  exact ⟨⟨by decide, h⟩, by decide⟩

/-- A field of a verdict between its brackets. -/
theorem newline_notMem_verdict {label name prw said value : Text} (hlabel : newline ∉ label)
    (h : Plain name ∧ Plain prw) (hsaid : newline ∉ said) (hvalue : newline ∉ value) :
    newline ∉ label ++ name ++ lit "][" ++ prw ++ said ++ value := by
  simp only [List.mem_append, not_or]
  exact ⟨⟨⟨⟨⟨hlabel, h.1.2⟩, by decide⟩, h.2.2⟩, hsaid⟩, hvalue⟩

theorem PlainItem.prwOf {item : Item} (h : PlainItem item) : Plain (prwOf item) := by
  unfold CtfIo.prwOf
  split
  · exact h.pr
  · exact h.pw

variable {I : σ → Prop} {P : Platform σ F} {parser : IoParser}

section Commands

variable (h : Unbroken I P) (hitems : PlainItems parser)

include h hitems

theorem get_plain {args : List Text} (hargs : ∀ w ∈ args, newline ∉ w) {io : σ} (hio : I io) :
    I (performCommandGet P args parser io).io ∧
      ∀ o ∈ (performCommandGet P args parser io).outputs, PlainOutput o := by
  cases args with
  | nil => exact ⟨hio, plain_outputs_error (Or.inl rfl) (unbrokenExn rfl (by decide)) io⟩
  | cons name rest =>
      have hname : newline ∉ name := hargs name List.mem_cons_self
      cases hfind : parser.findItem name with
      | none =>
          simp only [performCommandGet, hfind]
          exact ⟨hio, plain_outputs_error (Or.inl rfl) (unbroken_invalidItem hname) io⟩
      | some item =>
          have hitem := hitems name item hfind
          by_cases hpr : item.pr = []
          · simp only [performCommandGet, hfind, if_pos hpr]
            refine ⟨hio, plain_outputs_error (Or.inl rfl) (unbrokenExn rfl ?_) io⟩
            simp only [List.mem_append, not_or]
            exact ⟨⟨by decide, hname⟩, by decide⟩
          · obtain ⟨hok, herror⟩ := h.convert item.dt (List.not_mem_nil : newline ∉ [])
            cases hconv : convert P item.dt [] with
            | error e =>
                simp only [performCommandGet, hfind, if_neg hpr, make_eq P hpr, hconv, Except.map]
                exact ⟨hio, plain_outputs_error (Or.inl rfl) (herror e hconv) io⟩
            | ok raw =>
                obtain ⟨hio', hwhat, hvalue⟩ :=
                  h.read (v := ⟨raw, P.toIoName raw.kind item.pr⟩) (hok raw hconv) hio
                have hfields : Plain item.name ∧ Plain item.pr := ⟨hitem.name, hitem.pr⟩
                simp only [performCommandGet, hfind, if_neg hpr, make_eq P hpr, hconv, Except.map]
                split
                · rename_i hsuccess
                  refine ⟨hio', plain_outputs (Or.inl rfl) hwhat ?_ _⟩
                  exact plainOutput_report hfields
                    (newline_notMem_verdict (by decide) hfields (by decide) (hvalue hsuccess))
                · refine ⟨hio', plain_outputs (Or.inl rfl) hwhat ?_ _⟩
                  refine plainOutput_report hfields ?_
                  rw [failRead_line]
                  exact newline_notMem_verdict (by decide) hfields (by decide) List.not_mem_nil

theorem set_plain {args : List Text} (hargs : ∀ w ∈ args, newline ∉ w) {io : σ} (hio : I io) :
    I (performCommandSet P args parser io).io ∧
      ∀ o ∈ (performCommandSet P args parser io).outputs, PlainOutput o := by
  have hcount := plain_outputs_error (Or.inl rfl) (e := .invalidArgument
    (lit "requires exactly two arguments on command")) (unbrokenExn rfl (by decide)) io
  match args with
  | [] => exact ⟨hio, hcount⟩
  | [_] => exact ⟨hio, hcount⟩
  | _ :: _ :: _ :: _ => exact ⟨hio, hcount⟩
  | [name, value] =>
      obtain ⟨hname, hvalue, -⟩ : newline ∉ name ∧ newline ∉ value ∧ True := by
        simpa using hargs
      cases hfind : parser.findItem name with
      | none =>
          simp only [performCommandSet, hfind]
          exact ⟨hio, plain_outputs_error (Or.inl rfl) (unbroken_invalidItem hname) io⟩
      | some item =>
          have hitem := hitems name item hfind
          have hwarning := pwWarning_cases item
          by_cases hprw : prwOf item = []
          · simp only [performCommandSet, hfind, if_pos hprw]
            exact ⟨hio, plain_outputs_error hwarning (unbrokenExn rfl (by decide)) io⟩
          · obtain ⟨hok, herror⟩ := h.convert item.dt hvalue
            cases hconv : convert P item.dt value with
            | error e =>
                rw [set_of_convert_error P parser hfind hprw hconv]
                exact ⟨hio, plain_outputs_error hwarning (herror e hconv) io⟩
            | ok raw =>
                obtain ⟨hio', hwhat⟩ := h.write (v := ⟨raw, P.toIoName raw.kind (prwOf item)⟩)
                  (hok raw hconv) hio
                rw [set_of_convert P parser hfind hprw hconv]
                refine ⟨hio', plain_outputs hwarning hwhat ?_ _⟩
                have hfields : Plain item.name ∧ Plain (prwOf item) := ⟨hitem.name, hitem.prwOf⟩
                split
                · exact plainOutput_report hfields (newline_notMem_verdict (by decide) hfields
                    (by decide) (h.display (hok raw hconv)))
                · exact plainOutput_report hfields (newline_notMem_verdict (by decide) hfields
                    (by decide) hvalue)

variable (order : IterationOrder Text)

/-- A command keeps the layer in `I` and prints plain outputs. -/
theorem performCommand_plain (which : Which) {args : List Text}
    (hargs : ∀ w ∈ args, newline ∉ w) {io : σ} (hio : I io) :
    I (performCommand P order which args parser io).io ∧
      ∀ o ∈ (performCommand P order which args parser io).outputs, PlainOutput o := by
  cases which with
  | get => exact get_plain h hitems hargs hio
  | set => exact set_plain h hitems hargs hio
  | info =>
      obtain ⟨hsame, hprinted⟩ := info_spec parser order args io
      refine ⟨by rwa [performCommand, hsame], fun o ho => ?_⟩
      rcases List.mem_append.mp ho with ho | ho
      · obtain ⟨r, hr, rfl⟩ := List.mem_map.mp ho
        obtain ⟨n, item, hfind, rfl⟩ := hprinted r hr
        have hitem := hitems n item hfind
        exact plainOutput_report hitem hitem.newline_notMem
      · cases args with
        | nil =>
            obtain rfl := List.mem_singleton.mp ho
            exact plainOutput_error (unbrokenExn rfl (by decide))
        | cons name rest =>
            simp only [performCommand, performCommandInfo] at ho
            split at ho
            · cases ho
            · split at ho
              · cases ho
              · obtain rfl := List.mem_singleton.mp ho
                exact plainOutput_error (unbroken_invalidItem (hargs name List.mem_cons_self))

/-- The state is in `I`, and what has been printed is plain. -/
structure PlainDevice (I : σ → Prop) (d : Device σ) : Prop where
  io : I d.io
  outputs : ∀ o ∈ d.outputs, PlainOutput o

theorem PlainDevice.step {d : Device σ} (hd : PlainDevice I d) {st : Statement}
    (hst : st.Typable) : PlainDevice I (d.step P order parser st) := by
  have hword : ∀ {w : Text}, Statement.IsWord w → newline ∉ w := fun hw => newline_notMem hw.2
  have hprints : I (d.step P order parser st).io ∧
      ∀ o ∈ d.prints P order parser st, PlainOutput o := by
    cases st with
    | exit => exact ⟨hd.io, fun o ho => absurd ho List.not_mem_nil⟩
    | blank =>
        exact ⟨hd.io, List.forall_mem_singleton.mpr
          (plainOutput_error (unbrokenExn rfl (by decide)))⟩
    | help =>
        refine ⟨hd.io, List.forall_mem_singleton.mpr ⟨?_, fun r hr => by cases hr⟩⟩
        decide
    | unknown word =>
        have hplain : newline ∉ word := by
          rcases hst with rfl | ⟨hw, -⟩
          · exact List.not_mem_nil
          · exact hword hw
        refine ⟨hd.io, List.forall_mem_singleton.mpr (plainOutput_error (unbrokenExn rfl ?_))⟩
        simp only [List.mem_append, not_or]
        exact ⟨⟨by decide, hplain⟩, by decide⟩
    | ask which args =>
        exact performCommand_plain h hitems order which (fun w hw => hword (hst w hw)) hd.io
  refine ⟨hprints.1, fun o ho => ?_⟩
  rw [Device.step_outputs] at ho
  rcases List.mem_append.mp ho with ho | ho
  · exact hd.outputs o ho
  · exact hprints.2 o ho

/-- A session on plain items and an unbroken layer prints plain outputs. -/
theorem Device.session_plain (n : ℕ) {io : σ} (hio : I io) (input : Stream' (Option Text)) :
    ∀ o ∈ (Device.session P order parser n io (input.map Statement.ofLine)).1.outputs,
      PlainOutput o := by
  rw [Device.session_eq]
  have hstart : PlainDevice I ({ io := io } : Device σ) :=
    ⟨hio, fun o ho => absurd ho List.not_mem_nil⟩
  refine (List.foldlRecOn (motive := PlainDevice I) _ _ hstart fun d hd st hst => ?_).outputs
  exact hd.step h hitems order (typable_of_mem_servedStatements hst)

end Commands

/-- Two programs, on whatever layers and inputs, leave the same text on the console
exactly when they print the same outputs, up to what is not shown. -/
theorem program_transcript {σ' F' : Type} {I' : σ' → Prop} {P' : Platform σ' F'}
    (order order' : IterationOrder Text) {parser' : IoParser} (h : Unbroken I P)
    (h' : Unbroken I' P') (hitems : PlainItems parser) (hitems' : PlainItems parser')
    (name name' : Text) (n n' : ℕ) {io : σ} {io' : σ'} (hio : I io) (hio' : I' io')
    (input input' : Stream' (Option Text)) :
    let d := (Device.session P order parser n io (input.map Statement.ofLine)).1
    let d' := (Device.session P' order' parser' n' io' (input'.map Statement.ofLine)).1
    consoleText (program P order parser name n io input).1.console =
        consoleText (program P' order' parser' name' n' io' input').1.console ↔
      d.outputs.map shownOutput = d'.outputs.map shownOutput := by
  intro d d'
  obtain ⟨ht, -⟩ := program_tracks P order parser name n io input
  obtain ⟨ht', -⟩ := program_tracks P' order' parser' name' n' io' input'
  rw [ht.console, ht'.console]
  exact consoleText_eq_iff (Device.session_plain h hitems order n hio input)
    (Device.session_plain h' hitems' order' n' hio' input')

/-- The ledger over the conversions of the memory store. -/
theorem ledger_unbroken : Unbroken (HoldsUnbroken Ledger.values) (ledger memoryPlatform) := by
  refine (Ledger.reliable memoryPlatform).unbroken (fun x => ?_) fun s e he => ?_
  · change newline ∉ intToString x ++ lit ".000000"
    rw [List.mem_append, not_or]
    exact ⟨(plain_intToString x).2, by decide⟩
  · rcases stoi_error he with rfl | rfl <;> exact unbrokenExn rfl (by decide)

theorem holdsUnbroken_emptyLedger : HoldsUnbroken Ledger.values emptyLedger :=
  fun key raw hraw => by cases hraw

/-- The text of two sets tells the values that they write. -/
theorem program_transcript_alias :
    let session := fun line : Text => program (ledger memoryPlatform)
      (IterationOrder.latestFirst Text) aliasParser (lit "t") 1 emptyLedger
      ([some line] ++ₛ Stream'.const none)
    consoleText (session (lit "set b 7")).1.console ≠
      consoleText (session (lit "set b 8")).1.console := by
  intro session heq
  have hplain : PlainItems aliasParser := by
    intro n item hfind
    have hmem := List.mem_of_find?_eq_some ((find_indexBy_empty _ _ _).symm.trans hfind)
    simp only [List.mem_cons, List.not_mem_nil, or_false] at hmem
    rcases hmem with rfl | rfl
    · exact ⟨by decide, by decide, by decide⟩
    · exact ⟨by decide, by decide, by decide⟩
  have hshown := (program_transcript (IterationOrder.latestFirst Text)
    (IterationOrder.latestFirst Text) ledger_unbroken ledger_unbroken hplain hplain (lit "t")
    (lit "t") 1 1 holdsUnbroken_emptyLedger holdsUnbroken_emptyLedger _ _).mp heq
  revert hshown
  decide

end Sessions

end IoEmulator.CtfIo
