import IoEmulator.CtfIo.Ledger
import IoEmulator.Numerals

/-!
# Which calls can be caused from the prompt

The calls of a session are determined by its lines, whatever the IO layer answers
to them. Over all sessions they are the reads and writes that the configuration
permits, with the values that can be typed as a word.
-/

namespace IoEmulator.CtfIo

open Conf Termctl Foundation.Enumeration Foundation.FirstWinsMap Foundation.Words
open Foundation.InterruptibleLoop

variable {σ F : Type} (P : Platform σ F) (order : IterationOrder Text) (parser : IoParser)

/-- The call that reads a value of a kind. -/
def Kind.readCall : Kind → Text → IoCall F
  | .int => .readInt
  | .double => .readDouble
  | .string => .readString

theorem Variant.readCall_eq (v : Variant F) : v.readCall = v.var.kind.readCall v.param := by
  obtain ⟨raw, param⟩ := v
  cases raw <;> rfl

/-- The call that a statement makes. -/
def Statement.call? : Statement → Option (IoCall F)
  | .ask .get (name :: _) =>
      (parser.findItem name).bind fun item =>
        if item.pr = [] then none
        else (kindOf item.dt).map fun kind => kind.readCall (P.toIoName kind item.pr)
  | st => (st.write? P parser).map fun p => Variant.writeCall ⟨p.2, p.1.2⟩

section Steps

theorem get_call? {args : List Text} {item : Item} (h : Readable parser args item) {kind : Kind}
    (hkind : kindOf item.dt = some kind) :
    Statement.call? P parser (.ask .get args) =
      some (kind.readCall (P.toIoName kind item.pr)) := by
  obtain ⟨name, rest, rfl, hfind, hpr, -⟩ := h
  simp [Statement.call?, hfind, hpr, hkind]

theorem get_call?_none {args : List Text} (h : ∀ item, ¬ Readable parser args item) :
    Statement.call? P parser (.ask .get args) = none := by
  cases args with
  | nil => rfl
  | cons name rest =>
      rw [Statement.call?, Option.bind_eq_none_iff]
      intro item hfind
      by_cases hpr : item.pr = []
      · rw [if_pos hpr]
      · rw [if_neg hpr, Option.map_eq_none_iff, Option.eq_none_iff_forall_ne_some]
        exact fun kind hkind => h item ⟨name, rest, rfl, hfind, hpr, kind, hkind⟩

/-- A get calls what its arguments say. -/
theorem get_log (args : List Text) (s : σ × List (IoCall F)) :
    (performCommandGet P.logged args parser s).io.2 =
      s.2 ++ (Statement.call? P parser (.ask .get args)).toList := by
  by_cases hitem : ∃ item, Readable parser args item
  · obtain ⟨item, hitem⟩ := hitem
    obtain ⟨v, hkind, hparam, hrun⟩ := hitem.run P.logged parser s
    have hparam' : v.param = P.toIoName v.var.kind item.pr := hparam
    rw [hrun, Variant.read_logged, get_call? P parser hitem hkind, ← hparam', ← v.readCall_eq]
    rfl
  · obtain ⟨e, hrun⟩ := get_of_not_readable P.logged parser (not_exists.mp hitem)
    rw [hrun, get_call?_none P parser (not_exists.mp hitem)]
    exact (List.append_nil _).symm

/-- A set calls what its arguments say. -/
theorem set_log (args : List Text) (s : σ × List (IoCall F)) :
    (performCommandSet P.logged args parser s).io.2 =
      s.2 ++ (Statement.call? P parser (.ask .set args)).toList := by
  match args with
  | [] => exact (List.append_nil _).symm
  | [_] => exact (List.append_nil _).symm
  | _ :: _ :: _ :: _ => exact (List.append_nil _).symm
  | [name, value] =>
      simp only [Statement.call?, Statement.write?]
      cases hfind : parser.findItem name with
      | none => simp [performCommandSet, hfind]
      | some item =>
          by_cases hprw : prwOf item = []
          · simp [performCommandSet, hfind, hprw]
          · simp only [Option.bind_some, if_neg hprw]
            cases hconv : convert P item.dt value with
            | error e =>
                rw [set_of_convert_error P.logged parser hfind hprw hconv]
                exact (List.append_nil _).symm
            | ok raw =>
                rw [set_of_convert P.logged parser hfind hprw hconv, Variant.write_logged]
                rfl

/-- A statement calls what it says, whatever has been answered before. -/
theorem Device.step_log (d : Device (σ × List (IoCall F))) (st : Statement) :
    (d.step P.logged order parser st).io.2 = d.io.2 ++ (st.call? P parser).toList := by
  cases st with
  | blank => exact (List.append_nil _).symm
  | unknown word => exact (List.append_nil _).symm
  | help => exact (List.append_nil _).symm
  | exit => exact (List.append_nil _).symm
  | ask which args =>
      cases which with
      | get => exact get_log P parser args d.io
      | set => exact set_log P parser args d.io
      | info =>
          have hio : (d.step P.logged order parser (.ask .info args)).io = d.io :=
            (info_spec parser order args d.io).1
          rw [hio]
          exact (List.append_nil _).symm

theorem Device.foldl_log (d : Device (σ × List (IoCall F))) (sts : List Statement) :
    (sts.foldl (Device.step P.logged order parser) d).io.2 =
      d.io.2 ++ sts.filterMap (Statement.call? P parser) := by
  induction sts generalizing d with
  | nil => exact (List.append_nil _).symm
  | cons st sts ih =>
      rw [List.foldl_cons, ih, Device.step_log, List.append_assoc]
      cases hcall : st.call? P parser with
      | none => rw [List.filterMap_cons_none hcall]; rfl
      | some call => rw [List.filterMap_cons_some hcall]; rfl

/-- The calls of a session are those its statements say, in order. -/
theorem Device.session_log (n : ℕ) (io : σ) (input : Stream' (Option Text)) :
    (Device.session P.logged order parser n (io, []) (input.map Statement.ofLine)).1.io.2 =
      (servedStatements n input).filterMap (Statement.call? P parser) := by
  rw [Device.session_eq, Device.foldl_log]
  rfl

end Steps

/-- The calls of the program are those its lines say, in order, whatever the layer
answers to them. -/
theorem program_log (name : Text) (n : ℕ) (io : σ) (input : Stream' (Option Text)) :
    (program P.logged order parser name n (io, []) input).1.world.io.2 =
      (servedStatements n input).filterMap (Statement.call? P parser) := by
  obtain ⟨ht, -⟩ := program_tracks P.logged order parser name n (io, []) input
  rw [ht.world, Device.session_log]

section Permission

/-- The value can be typed as a word. -/
def TypedValue : Raw F → Prop
  | .int _ => True
  | .double x => ∃ w, Statement.IsWord w ∧ P.stod w = .ok x
  | .string s => Statement.IsWord s

/-- The reads and writes of the items that can be addressed, as values of their
types, under the io names derived for them. -/
inductive Permitted : IoCall F → Prop
  | read {key : Text} {item : Item} {kind : Kind} (hkey : Statement.IsWord key)
      (hfind : parser.findItem key = some item) (hkind : kindOf item.dt = some kind)
      (hpr : item.pr ≠ []) : Permitted (kind.readCall (P.toIoName kind item.pr))
  | write {key : Text} {item : Item} {raw : Raw F} (hkey : Statement.IsWord key)
      (hfind : parser.findItem key = some item) (hkind : kindOf item.dt = some raw.kind)
      (hprw : prwOf item ≠ []) (hraw : TypedValue P raw) :
      Permitted (Variant.writeCall ⟨raw, P.toIoName raw.kind (prwOf item)⟩)

theorem isWord_intToString (n : Int32) : Statement.IsWord (intToString n) :=
  ⟨(denotes_intToString n).ne_nil, (denotes_intToString n).isspace_eq_false⟩

/-- The values of a type that can be typed are those that words convert to. -/
theorem typedValue_iff {type : DataType} {raw : Raw F} (hkind : kindOf type = some raw.kind) :
    TypedValue P raw ↔ ∃ w, Statement.IsWord w ∧ convert P type w = .ok raw := by
  cases raw with
  | int n =>
      obtain rfl : type = .intVal := by cases type <;> simp_all [kindOf, Raw.kind]
      refine iff_of_true trivial ⟨intToString n, isWord_intToString n, ?_⟩
      rw [convert, if_neg (isWord_intToString n).1, stoi_intToString]
      rfl
  | double x =>
      obtain rfl : type = .doubleVal := by cases type <;> simp_all [kindOf, Raw.kind]
      refine exists_congr fun w => and_congr_right fun hw => ?_
      rw [convert, if_neg hw.1, map_eq_ok_iff]
      simp
  | string s =>
      obtain rfl : type = .stringVal := by cases type <;> simp_all [kindOf, Raw.kind]
      simp [TypedValue, convert]

/-- The statements that can be typed call exactly what is permitted. -/
theorem exists_call?_iff (call : IoCall F) :
    (∃ st : Statement, st.Typable ∧ st.call? P parser = some call) ↔ Permitted P parser call := by
  constructor
  · rintro ⟨st, hst, hcall⟩
    match st with
    | .ask .get (name :: rest) =>
        simp only [Statement.call?, Option.bind_eq_some_iff, Option.ite_none_left_eq_some,
          Option.map_eq_some_iff] at hcall
        obtain ⟨item, hfind, hpr, kind, hkind, rfl⟩ := hcall
        exact .read (hst name List.mem_cons_self) hfind hkind hpr
    | .ask .set args =>
        obtain ⟨p, hwrite, rfl⟩ := Option.map_eq_some_iff.mp hcall
        obtain ⟨name, value, item, raw, rfl, hfind, hprw, hconv, rfl⟩ :=
          (Statement.write?_set_eq_some_iff P parser args p).mp hwrite
        have hkind := kindOf_of_convert P hconv
        have hvalue : Statement.IsWord value := hst value (by simp)
        exact .write (hst name List.mem_cons_self) hfind hkind hprw
          ((typedValue_iff P hkind).mpr ⟨value, hvalue, hconv⟩)
  · intro h
    cases h with
    | @read key item kind hkey hfind hkind hpr =>
        refine ⟨.ask .get [key], by simpa [Statement.Typable] using hkey, ?_⟩
        simp [Statement.call?, hfind, hpr, hkind]
    | @write key item raw hkey hfind hkind hprw hraw =>
        obtain ⟨w, hw, hconv⟩ := (typedValue_iff P hkind).mp hraw
        refine ⟨.ask .set [key, w], by simpa [Statement.Typable] using ⟨hkey, hw⟩, ?_⟩
        have hwrite := (Statement.write?_set_eq_some_iff P parser [key, w] _).mpr
          ⟨key, w, item, raw, rfl, hfind, hprw, hconv, rfl⟩
        exact Option.map_eq_some_iff.mpr ⟨_, hwrite, rfl⟩

/-- A call is made in some session exactly when it is permitted. -/
theorem call_possible_iff (name : Text) (io : σ) (call : IoCall F) :
    (∃ n input, call ∈ (program P.logged order parser name n (io, []) input).1.world.io.2) ↔
      Permitted P parser call := by
  rw [← exists_call?_iff]
  constructor
  · rintro ⟨n, input, hmem⟩
    obtain ⟨ht, -⟩ := program_tracks P.logged order parser name n (io, []) input
    rw [ht.world, Device.session_log, List.mem_filterMap] at hmem
    obtain ⟨st, hst, hcall⟩ := hmem
    exact ⟨st, typable_of_mem_servedStatements hst, hcall⟩
  · rintro ⟨st, hst, hcall⟩
    refine ⟨1, Stream'.const (some st.render), ?_⟩
    rw [(program_render P.logged order parser name (io, []) hst).world, Device.step_log, hcall]
    exact List.mem_singleton_self call

end Permission

end IoEmulator.CtfIo
