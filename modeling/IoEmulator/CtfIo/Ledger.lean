import IoEmulator.CtfIo.LayerSimulation

/-!
# Sessions on a reliable layer

A reliable layer keeps what is written and answers every read. The ledger is the
plainest such layer, a table of the values written, and every other one behaves as
it does. So the lines alone decide what every key holds in the end.
-/

namespace IoEmulator.CtfIo

open Conf Termctl Foundation.Enumeration Foundation.FirstWinsMap Foundation.KeyedLog
open Foundation.InterruptibleLoop

variable {σ F : Type}

/-- The values injected so far. -/
abbrev Values (F : Type) := Key → Option (Raw F)

section Reliable

variable (contents : σ → Values F)

/-- A read succeeds exactly when its key holds a value. -/
def AnswersAll {α : Type} (kind : Kind) (f : Text → α → σ → IoAnswer σ α) : Prop :=
  ∀ name old io, (f name old io).result = .ok (contents io (kind, name)).isSome

/-- A write succeeds. -/
def AcceptsAll {α : Type} (f : Text → α → σ → IoAnswer σ Unit) : Prop :=
  ∀ name v io, (f name v io).result = .ok true

/-- The layer is a store that is always there. -/
structure Reliable (P : Platform σ F) : Prop extends Contract contents P where
  answersInt : AnswersAll contents .int P.ioReadInt
  answersDouble : AnswersAll contents .double P.ioReadDouble
  answersString : AnswersAll contents .string P.ioReadString
  acceptsInt : AcceptsAll P.ioWriteInt
  acceptsDouble : AcceptsAll P.ioWriteDouble
  acceptsString : AcceptsAll P.ioWriteString

variable {contents} {P : Platform σ F}

theorem Reliable.read_result (h : Reliable contents P) (v : Variant F) (io : σ) :
    (v.read P io).result = .ok (contents io (v.var.kind, v.param)).isSome := by
  obtain ⟨raw, param⟩ := v
  cases raw with
  | int n => exact h.answersInt param n io
  | double x => exact h.answersDouble param x io
  | string s => exact h.answersString param s io

theorem Reliable.write_result (h : Reliable contents P) (v : Variant F) (io : σ) :
    (v.write P io).result = .ok true := by
  obtain ⟨raw, param⟩ := v
  cases raw with
  | int n => exact h.acceptsInt param n io
  | double x => exact h.acceptsDouble param x io
  | string s => exact h.acceptsString param s io

end Reliable

section Ledger

/-- A table of values, each of the kind of its key. -/
structure Ledger (F : Type) where
  values : Values F
  kinds : ∀ key v, values key = some v → v.kind = key.1

namespace Ledger

/-- Replace the value under the key of its kind and a name. -/
def store (m : Ledger F) (name : Text) (v : Raw F) : Ledger F where
  values := Function.update m.values (v.kind, name) (some v)
  kinds key w hw := by
    by_cases hkey : key = (v.kind, name)
    · subst hkey
      rw [Function.update_self] at hw
      rw [Option.some.inj hw]
    · rw [Function.update_of_ne hkey] at hw
      exact m.kinds key w hw

/-- Read the value under a key, as a value of its kind. -/
def fetch {α : Type} (kind : Kind) (value? : Raw F → Option α) (name : Text) (old : α)
    (m : Ledger F) : IoAnswer (Ledger F) α :=
  match (m.values (kind, name)).bind value? with
  | some v => ⟨m, v, .ok true⟩
  | none => ⟨m, old, .ok false⟩

end Ledger

def Raw.int? : Raw F → Option Int32
  | .int n => some n
  | _ => none

def Raw.double? : Raw F → Option F
  | .double x => some x
  | _ => none

def Raw.string? : Raw F → Option Text
  | .string s => some s
  | _ => none

/-- The ledger as a layer that converts and names as `P` does. -/
def ledger (P : Platform σ F) : Platform (Ledger F) F where
  zero := P.zero
  stod := P.stod
  toString := P.toString
  toIoName := P.toIoName
  ioReadInt := Ledger.fetch .int Raw.int?
  ioReadDouble := Ledger.fetch .double Raw.double?
  ioReadString := Ledger.fetch .string Raw.string?
  ioWriteInt name n m := ⟨m.store name (.int n), (), .ok true⟩
  ioWriteDouble name x m := ⟨m.store name (.double x), (), .ok true⟩
  ioWriteString name s m := ⟨m.store name (.string s), (), .ok true⟩

namespace Ledger

variable {α : Type} {kind : Kind} {raw : α → Raw F} {value? : Raw F → Option α}

/-- Fetching finds what is there, when exactly the values of the kind are read. -/
theorem fetch_reads (hvalue : ∀ v, v.kind = kind → ∃ a, value? v = some a ∧ v = raw a)
    (name : Text) (old : α) (m : Ledger F) :
    (fetch kind value? name old m).io = m ∧
      (fetch kind value? name old m).result = .ok (m.values (kind, name)).isSome ∧
      ((fetch kind value? name old m).success = true →
        m.values (kind, name) = some (raw (fetch kind value? name old m).out)) := by
  unfold fetch
  cases hkey : m.values (kind, name) with
  | none => exact ⟨rfl, rfl, fun hok => by cases hok⟩
  | some v =>
      obtain ⟨a, ha, rfl⟩ := hvalue v (m.kinds _ _ hkey)
      rw [Option.bind_some, ha]
      exact ⟨rfl, rfl, fun _ => rfl⟩

theorem int?_of_kind (v : Raw F) (h : v.kind = .int) : ∃ n, v.int? = some n ∧ v = .int n := by
  cases v with
  | int n => exact ⟨n, rfl, rfl⟩
  | double x => cases h
  | string s => cases h

theorem double?_of_kind (v : Raw F) (h : v.kind = .double) :
    ∃ x, v.double? = some x ∧ v = .double x := by
  cases v with
  | int n => cases h
  | double x => exact ⟨x, rfl, rfl⟩
  | string s => cases h

theorem string?_of_kind (v : Raw F) (h : v.kind = .string) :
    ∃ s, v.string? = some s ∧ v = .string s := by
  cases v with
  | int n => cases h
  | double x => cases h
  | string s => exact ⟨s, rfl, rfl⟩

/-- The ledger is reliable. -/
theorem reliable (P : Platform σ F) : Reliable Ledger.values (ledger P) where
  readInt name old m := by
    obtain ⟨hio, -, hout⟩ := fetch_reads int?_of_kind name old m
    exact ⟨congrArg Ledger.values hio, hout⟩
  readDouble name old m := by
    obtain ⟨hio, -, hout⟩ := fetch_reads double?_of_kind name old m
    exact ⟨congrArg Ledger.values hio, hout⟩
  readString name old m := by
    obtain ⟨hio, -, hout⟩ := fetch_reads string?_of_kind name old m
    exact ⟨congrArg Ledger.values hio, hout⟩
  writeInt _ _ _ := rfl
  writeDouble _ _ _ := rfl
  writeString _ _ _ := rfl
  answersInt name old m := (fetch_reads int?_of_kind name old m).2.1
  answersDouble name old m := (fetch_reads double?_of_kind name old m).2.1
  answersString name old m := (fetch_reads string?_of_kind name old m).2.1
  acceptsInt _ _ _ := rfl
  acceptsDouble _ _ _ := rfl
  acceptsString _ _ _ := rfl

end Ledger

variable {contents : σ → Values F} {P : Platform σ F}

/-- A reliable layer holds values of the kinds of their keys, since it delivers
them to reads of these kinds. -/
theorem Reliable.kinds (h : Reliable contents P) (io : σ) (key : Key) (v : Raw F)
    (hv : contents io key = some v) : v.kind = key.1 := by
  obtain ⟨kind, name⟩ := key
  have hfound : (contents io (kind, name)).isSome = true := by rw [hv]; rfl
  cases kind with
  | int =>
      have hok := (h.answersInt name 0 io).trans (congrArg _ hfound)
      have hout := (h.readInt name 0 io).2 (by rw [IoAnswer.success, hok])
      rw [hv] at hout
      rw [Option.some.inj hout]
      rfl
  | double =>
      have hok := (h.answersDouble name P.zero io).trans (congrArg _ hfound)
      have hout := (h.readDouble name P.zero io).2 (by rw [IoAnswer.success, hok])
      rw [hv] at hout
      rw [Option.some.inj hout]
      rfl
  | string =>
      have hok := (h.answersString name [] io).trans (congrArg _ hfound)
      have hout := (h.readString name [] io).2 (by rw [IoAnswer.success, hok])
      rw [hv] at hout
      rw [Option.some.inj hout]
      rfl

/-- The contents of a reliable layer as a ledger. -/
def Reliable.ledgerAt (h : Reliable contents P) (io : σ) : Ledger F where
  values := contents io
  kinds := h.kinds io

section Simulation

variable {σ τ : Type} {contents : σ → Values F} {contents' : τ → Values F} {α : Type}
  {kind : Kind} {raw : α → Raw F}

theorem answersAlike_read (hraw : ∀ a b, raw a = raw b → a = b)
    {f : Text → α → σ → IoAnswer σ α} (hf : ReadsStore contents kind raw f)
    (hanswers : AnswersAll contents kind f)
    {g : Text → α → τ → IoAnswer τ α} (hg : ReadsStore contents' kind raw g)
    (hanswers' : AnswersAll contents' kind g) (name : Text) (old : α) {io : σ} {io' : τ}
    (hio : contents io = contents' io') :
    AnswersAlike (fun io io' => contents io = contents' io') (f name old io) (g name old io') := by
  obtain ⟨hsame, hout⟩ := hf name old io
  obtain ⟨hsame', hout'⟩ := hg name old io'
  have hresult : (f name old io).result = (g name old io').result := by
    rw [hanswers name old io, hanswers' name old io', hio]
  refine ⟨hsame.trans (hio.trans hsame'.symm), hresult, fun hok => ?_⟩
  have hok' : (g name old io').success = true := by rw [IoAnswer.success, ← hresult]; exact hok
  apply hraw
  exact Option.some.inj ((hout hok).symm.trans (hio ▸ hout' hok'))

theorem answersAlike_write {f : Text → α → σ → IoAnswer σ Unit}
    (hf : WritesStore contents kind raw f) (haccepts : AcceptsAll f)
    {g : Text → α → τ → IoAnswer τ Unit} (hg : WritesStore contents' kind raw g)
    (haccepts' : AcceptsAll g) (name : Text) (v : α) {io : σ} {io' : τ}
    (hio : contents io = contents' io') :
    AnswersAlike (fun io io' => contents io = contents' io') (f name v io) (g name v io') := by
  have hresult := haccepts name v io
  have hresult' := haccepts' name v io'
  have hupdate := hf name v io
  have hupdate' := hg name v io'
  rw [IoAnswer.success, hresult, if_pos rfl] at hupdate
  rw [IoAnswer.success, hresult', if_pos rfl] at hupdate'
  exact ⟨by rw [hupdate, hupdate', hio], hresult.trans hresult'.symm, fun _ => rfl⟩

/-- Reliable layers that convert and name alike answer alike, as long as their
contents agree. -/
theorem Reliable.simulates {P : Platform σ F} (h : Reliable contents P) {P' : Platform τ F}
    (h' : Reliable contents' P') (hzero : P.zero = P'.zero) (hstod : P.stod = P'.stod)
    (htoString : P.toString = P'.toString) (htoIoName : P.toIoName = P'.toIoName) :
    Simulates (fun io io' => contents io = contents' io') P P' where
  zero := hzero
  stod := hstod
  toString := htoString
  toIoName := htoIoName
  readInt name old _ _ hio :=
    answersAlike_read (fun _ _ => Raw.int.inj) h.readInt h.answersInt h'.readInt h'.answersInt
      name old hio
  readDouble name old _ _ hio :=
    answersAlike_read (fun _ _ => Raw.double.inj) h.readDouble h.answersDouble h'.readDouble
      h'.answersDouble name old hio
  readString name old _ _ hio :=
    answersAlike_read (fun _ _ => Raw.string.inj) h.readString h.answersString h'.readString
      h'.answersString name old hio
  writeInt name n _ _ hio :=
    answersAlike_write h.writeInt h.acceptsInt h'.writeInt h'.acceptsInt name n hio
  writeDouble name x _ _ hio :=
    answersAlike_write h.writeDouble h.acceptsDouble h'.writeDouble h'.acceptsDouble name x hio
  writeString name s _ _ hio :=
    answersAlike_write h.writeString h.acceptsString h'.writeString h'.acceptsString name s hio

end Simulation

end Ledger

section Commands

variable (P : Platform σ F) (order : IterationOrder Text) (parser : IoParser)

/-- What a statement writes, and under which key. -/
def Statement.write? : Statement → Option (Key × Raw F)
  | .ask .set [name, value] =>
      (parser.findItem name).bind fun item =>
        if prwOf item = [] then none
        else (convert P item.dt value).toOption.map fun raw =>
          ((raw.kind, P.toIoName raw.kind (prwOf item)), raw)
  | _ => none

theorem Statement.write?_set_eq_some_iff (args : List Text) (p : Key × Raw F) :
    Statement.write? P parser (.ask .set args) = some p ↔
      ∃ name value item raw, args = [name, value] ∧ parser.findItem name = some item ∧
        prwOf item ≠ [] ∧ convert P item.dt value = .ok raw ∧
        p = ((raw.kind, P.toIoName raw.kind (prwOf item)), raw) := by
  constructor
  · intro h
    match args with
    | [name, value] =>
        simp only [Statement.write?, Option.bind_eq_some_iff, Option.ite_none_left_eq_some,
          Option.map_eq_some_iff, toOption_eq_some_iff] at h
        obtain ⟨item, hfind, hprw, raw, hconv, rfl⟩ := h
        exact ⟨name, value, item, raw, rfl, hfind, hprw, hconv, rfl⟩
  · rintro ⟨name, value, item, raw, rfl, hfind, hprw, hconv, rfl⟩
    simp [Statement.write?, hfind, hprw, toOption_eq_some_iff.mpr hconv]

variable {contents : σ → Values F} {P}

/-- A get of a readable item shows what its key holds. -/
theorem Reliable.get (h : Reliable contents P) {args : List Text} {item : Item} {key : Key}
    (hitem : Readable parser args item) (hkey : keyOf P item item.pr = some key) (io : σ) :
    (performCommandGet P args parser io).printed =
      [match contents io key with
        | some v => .okRead item.name item.pr (v.display P)
        | none => .failRead item.name item.pr] ∧
      (performCommandGet P args parser io).outcome = .ok () := by
  obtain ⟨v, hkind, hparam, hrun⟩ := hitem.run P parser io
  obtain rfl : (v.var.kind, v.param) = key := by simpa [keyOf, hkind, hparam] using hkey
  have hresult := h.read_result v io
  have hread := (h.read v io).2
  rw [hrun, IoAnswer.complaint, hresult, IoAnswer.success, hresult]
  rw [IoAnswer.success, hresult] at hread
  cases hvalue : contents io (v.var.kind, v.param) with
  | none => exact ⟨rfl, rfl⟩
  | some raw =>
      rw [hvalue] at hread
      obtain rfl := Option.some.inj (hread rfl)
      exact ⟨rfl, rfl⟩

theorem Reliable.get_contents (h : Reliable contents P) (args : List Text) (io : σ) :
    contents (performCommandGet P args parser io).io = contents io := by
  apply (records P parser h.toContract).skip (i := .get args)
  rintro key v ⟨name, value, item, hr, -⟩
  cases hr

/-- A set whose value converts stores it and prints its OK line. -/
theorem Reliable.set (h : Reliable contents P) {name value : Text} {item : Item} {raw : Raw F}
    (hfind : parser.findItem name = some item) (hprw : prwOf item ≠ [])
    (hconv : convert P item.dt value = .ok raw) (io : σ) :
    contents (performCommandSet P [name, value] parser io).io =
        Function.update (contents io) (raw.kind, P.toIoName raw.kind (prwOf item)) (some raw) ∧
      (performCommandSet P [name, value] parser io).printed =
        pwWarning item ++ [.okWrite item.name (prwOf item) (raw.display P)] ∧
      (performCommandSet P [name, value] parser io).outcome = .ok () := by
  have hresult := h.write_result ⟨raw, P.toIoName raw.kind (prwOf item)⟩ io
  have hwrite := h.write ⟨raw, P.toIoName raw.kind (prwOf item)⟩ io
  rw [IoAnswer.success, hresult, if_pos rfl] at hwrite
  rw [set_of_convert P parser hfind hprw hconv]
  refine ⟨hwrite, ?_, rfl⟩
  simp [IoAnswer.complaint, IoAnswer.success, hresult]

/-- A statement changes the contents exactly by what it writes. -/
theorem Reliable.step_contents (h : Reliable contents P) (d : Device σ) (st : Statement) :
    contents (d.step P order parser st).io =
      match st.write? P parser with
      | some (key, v) => Function.update (contents d.io) key (some v)
      | none => contents d.io := by
  cases st with
  | blank => rfl
  | unknown word => rfl
  | help => rfl
  | exit => rfl
  | ask which args =>
      cases which with
      | get => exact h.get_contents parser args d.io
      | info => exact congrArg contents (info_spec parser order args d.io).1
      | set =>
          rcases args with _ | ⟨name, _ | ⟨value, _ | ⟨surplus, rest⟩⟩⟩
          case nil => rfl
          case cons.nil => rfl
          case cons.cons.cons => rfl
          case cons.cons.nil =>
              simp only [Device.step, performCommand, Statement.write?]
              cases hfind : parser.findItem name with
              | none => simp [performCommandSet, hfind]
              | some item =>
                  by_cases hprw : prwOf item = []
                  · simp [performCommandSet, hfind, hprw]
                  · simp only [Option.bind_some, if_neg hprw]
                    cases hconv : convert P item.dt value with
                    | error e =>
                        rw [set_of_convert_error P parser hfind hprw hconv]
                        rfl
                    | ok raw => exact (h.set parser hfind hprw hconv d.io).1

/-- The contents follow what the statements write. -/
theorem Reliable.records (h : Reliable contents P) :
    Records (Device.step P order parser) (fun _ st key v => st.write? P parser = some (key, v))
      (fun d => contents d.io) where
  write := by
    intro d st key v hwrite
    rw [h.step_contents order parser, hwrite]
  skip := by
    intro d st hskip
    rw [h.step_contents order parser]
    cases hwrite : st.write? P parser with
    | none => rfl
    | some p => exact absurd hwrite (hskip p.1 p.2)

/-- On a reliable layer the program is the one on the ledger of its contents, and
every key holds in the end what the last line that writes it says, or what it
held at first. -/
theorem program_values (h : Reliable contents P) (name : Text) (n : ℕ) (io : σ)
    (input : Stream' (Option Text)) :
    let r := (program P order parser name n io input).1
    let l := (program (ledger P) order parser name n (h.ledgerAt io) input).1
    (contents r.world.io = l.world.io.values ∧ r.console = l.console ∧
      r.term.running = l.term.running) ∧
    ∀ key, contents r.world.io key =
      (lastWrite? (Statement.write? P parser) key (servedStatements n input)).or
        (contents io key) := by
  intro r l
  have hio : contents io = (h.ledgerAt io).values := rfl
  have hsim := h.simulates (Ledger.reliable P) rfl rfl rfl rfl
  obtain ⟨hd, -⟩ := sessions_alike hsim order parser n hio (input.map Statement.ofLine)
  obtain ⟨ht, -⟩ := program_tracks P order parser name n io input
  obtain ⟨ht', -⟩ := program_tracks (ledger P) order parser name n (h.ledgerAt io) input
  refine ⟨ht.alike order parser ht' hd, fun key => ?_⟩
  rw [ht.world, Device.session_eq]
  exact (h.records order parser).contents_stateless _ key _

end Commands

section Sample

/-- An empty ledger over the conversions of the memory store. -/
def emptyLedger : Ledger Int32 where
  values _ := none
  kinds key v h := by cases h

/-- The second set fails to convert, so the first one stands. -/
theorem program_values_sample :
    (programOn (ledger memoryPlatform) (IterationOrder.latestFirst Text) aliasParser (lit "t")
        emptyLedger [some (lit "set b 7"), some (lit "set a x"), some (lit "exit")]).world.io.values
      (.int, lit "p") = some (.int 7) := by
  have hvalues := (program_values (IterationOrder.latestFirst Text) aliasParser
    (Ledger.reliable memoryPlatform) (lit "t") 3 emptyLedger
    ([some (lit "set b 7"), some (lit "set a x"), some (lit "exit")] ++ₛ Stream'.const none)).2
  refine (hvalues (.int, lit "p")).trans ?_
  decide +kernel

end Sample

end IoEmulator.CtfIo
