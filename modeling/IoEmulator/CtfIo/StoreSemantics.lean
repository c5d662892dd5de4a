import IoEmulator.CtfIo.Perform
import IoEmulator.Foundation.KeyedLog

/-!
# Reading back what was set

The IO layer is assumed to be a store keyed by kind and io name. Over any run of
get and set commands, valid or not, a successful get shows the value of the last
successful set under the same key, whichever items the two named.

## Implementation notes

`Contract` states what is documented of the layer. Reads may fail at any time;
only a read of an absent key has to.
-/

namespace IoEmulator.CtfIo

open Conf Foundation.FirstWinsMap Foundation.KeyedLog

variable {σ F : Type}

/-- A key of the store: a kind and an io name. -/
abbrev Key := Kind × Text

section Contract

variable (contents : σ → Key → Option (Raw F))

/-- A read changes no key, and succeeds only with the value stored. -/
def ReadsStore {α : Type} (kind : Kind) (raw : α → Raw F)
    (f : Text → α → σ → IoAnswer σ α) : Prop :=
  ∀ name old io, contents (f name old io).io = contents io ∧
    ((f name old io).success = true →
      contents io (kind, name) = some (raw (f name old io).out))

/-- A write that succeeds updates exactly its key; any other changes nothing. -/
def WritesStore {α : Type} (kind : Kind) (raw : α → Raw F)
    (f : Text → α → σ → IoAnswer σ Unit) : Prop :=
  ∀ name v io, contents (f name v io).io =
    if (f name v io).success then Function.update (contents io) (kind, name) (some (raw v))
    else contents io

/-- The IO layer is a store keyed by kind and io name. -/
structure Contract (P : Platform σ F) : Prop where
  readInt : ReadsStore contents .int Raw.int P.ioReadInt
  readDouble : ReadsStore contents .double Raw.double P.ioReadDouble
  readString : ReadsStore contents .string Raw.string P.ioReadString
  writeInt : WritesStore contents .int Raw.int P.ioWriteInt
  writeDouble : WritesStore contents .double Raw.double P.ioWriteDouble
  writeString : WritesStore contents .string Raw.string P.ioWriteString

variable {contents} {P : Platform σ F}

/-- Reading a variant: the store is as before, and success delivers what is
stored under the variant's kind and name. -/
theorem Contract.read (h : Contract contents P) (v : Variant F) (io : σ) :
    contents (v.read P io).io = contents io ∧
      ((v.read P io).success = true →
        contents io (v.var.kind, v.param) = some (v.read P io).out.var) := by
  obtain ⟨raw, param⟩ := v
  cases raw with
  | int n => exact h.readInt param n io
  | double x => exact h.readDouble param x io
  | string s => exact h.readString param s io

/-- Writing a variant: success stores its value under its kind and name. -/
theorem Contract.write (h : Contract contents P) (v : Variant F) (io : σ) :
    contents (v.write P io).io =
      if (v.write P io).success then
        Function.update (contents io) (v.var.kind, v.param) (some v.var)
      else contents io := by
  obtain ⟨raw, param⟩ := v
  cases raw with
  | int n => exact h.writeInt param n io
  | double x => exact h.writeDouble param x io
  | string s => exact h.writeString param s io

end Contract

section Commands

variable (P : Platform σ F) (parser : IoParser)

/-- The key behind an item's parameter, for items of a known type. -/
def keyOf (item : Item) (param : Text) : Option Key :=
  (kindOf item.dt).map fun kind => (kind, P.toIoName kind param)

/-- A get or set command with its arguments. -/
inductive Request where
  | get (args : List Text)
  | set (args : List Text)

def perform (r : Request) (io : σ) : Performed σ :=
  match r with
  | .get args => performCommandGet P args parser io
  | .set args => performCommandSet P args parser io

/-- The state of the IO layer after a run of requests. -/
def ioAfter (rs : List Request) (io : σ) : σ :=
  rs.foldl (fun io r => (perform P parser r io).io) io

/-- The request is a set on an item behind `key`, prints its OK line and has `v`
as the conversion of its second argument. -/
def Injects (io : σ) (r : Request) (key : Key) (v : Raw F) : Prop :=
  ∃ name value item, r = .set [name, value] ∧ parser.findItem name = some item ∧
    keyOf P item (prwOf item) = some key ∧ convert P item.dt value = .ok v ∧
    ∃ shown, .okWrite item.name (prwOf item) shown ∈ (perform P parser r io).printed

theorem keyOf_eq {item : Item} {param value : Text} {raw : Raw F}
    (h : convert P item.dt value = .ok raw) :
    keyOf P item param = some (raw.kind, P.toIoName raw.kind param) := by
  rw [keyOf, kindOf_of_convert P h, Option.map_some]

/-- A set injects exactly when its write succeeds. -/
theorem set_injects_iff {io : σ} {name value : Text} {item : Item} {raw : Raw F}
    {warning : List Report} {a : IoAnswer σ Unit} (hfind : parser.findItem name = some item)
    (hconv : convert P item.dt value = .ok raw)
    (hwarning : warning = [] ∨ warning = [.emptyPw])
    (hrun : performCommandSet P [name, value] parser io = ⟨a.io, warning ++ a.complaint ++
      [if a.success then .okWrite item.name (prwOf item) (raw.display P)
      else .failWrite item.name (prwOf item) value], .ok ()⟩) (key : Key) (v : Raw F) :
    Injects P parser io (.set [name, value]) key v ↔
      a.success = true ∧ key = (raw.kind, P.toIoName raw.kind (prwOf item)) ∧ v = raw := by
  constructor
  · rintro ⟨name', value', item', hr, hfind', hkey, hconv', shown, hprinted⟩
    obtain ⟨rfl, rfl⟩ : name = name' ∧ value = value' := by simpa using hr
    obtain rfl := Option.some.inj (hfind.symm.trans hfind')
    obtain rfl := Except.ok.inj (hconv.symm.trans hconv')
    refine ⟨?_, by simpa [keyOf_eq P hconv, eq_comm] using hkey, rfl⟩
    by_contra hfail
    simp only [perform, hrun, if_neg hfail] at hprinted
    have hlast := (verdict_mem_iff hwarning rfl).mp hprinted
    simp at hlast
  · rintro ⟨hok, rfl, rfl⟩
    refine ⟨name, value, item, rfl, hfind, keyOf_eq P hconv, hconv, v.display P, ?_⟩
    simp [perform, hrun, hok]

/-- A set either injects nothing and leaves the store as it was, or ends without
an error or a FAIL line and stores the one value it injects. -/
theorem set_effect {contents : σ → Key → Option (Raw F)} (h : Contract contents P)
    (args : List Text) (io : σ) :
    ((∀ key v, ¬ Injects P parser io (.set args) key v) ∧
      contents (performCommandSet P args parser io).io = contents io) ∨
    ∃ key v, (∀ key' v', Injects P parser io (.set args) key' v' ↔ key' = key ∧ v' = v) ∧
      contents (performCommandSet P args parser io).io =
        Function.update (contents io) key (some v) ∧
      (performCommandSet P args parser io).outcome = .ok () ∧
      ∀ name prw value, .failWrite name prw value ∉
        (performCommandSet P args parser io).printed := by
  rcases set_cases P parser args io with
    ⟨e, printed, hrun, hprinted⟩ | ⟨name, value, item, raw, warning, rfl, hfind, hconv, hw, hrun⟩
  · refine Or.inl ⟨?_, by rw [hrun]⟩
    rintro key v ⟨name, value, item, -, -, -, -, shown, hmem⟩
    simp only [perform, hrun] at hmem
    rcases hprinted with rfl | rfl <;> simp at hmem
  · have hiff := set_injects_iff P parser hfind hconv hw hrun
    have hwrite := h.write ⟨raw, P.toIoName raw.kind (prwOf item)⟩ io
    rw [hrun]
    by_cases hok : (Variant.write P ⟨raw, P.toIoName raw.kind (prwOf item)⟩ io).success = true
    · rw [if_pos hok] at hwrite
      refine Or.inr ⟨_, raw, fun key' v' => (hiff key' v').trans (and_iff_right hok), hwrite, rfl,
        fun n p v hmem => ?_⟩
      simp only [if_pos hok] at hmem
      have hlast := (verdict_mem_iff hw rfl).mp hmem
      simp at hlast
    · refine Or.inl ⟨fun key v hinj => hok ((hiff key v).mp hinj).1, ?_⟩
      rw [if_neg hok] at hwrite
      exact hwrite

/-- Every request follows the contract: a set that prints its OK line stores its
value under its key, and any other request leaves the store as it was. -/
theorem records {contents : σ → Key → Option (Raw F)} (h : Contract contents P) :
    Records (fun io r => (perform P parser r io).io) (Injects P parser) contents where
  write := by
    intro io r key v hinj
    obtain ⟨name, value, -, rfl, -⟩ := id hinj
    rcases set_effect P parser h [name, value] io with ⟨hnone, -⟩ | ⟨key', v', hiff, hcont, -⟩
    · exact absurd hinj (hnone key v)
    · obtain ⟨rfl, rfl⟩ := (hiff key v).mp hinj
      exact hcont
  skip := by
    intro io r hskip
    cases r with
    | get args =>
        change contents (performCommandGet P args parser io).io = contents io
        by_cases hitem : ∃ item, Readable parser args item
        · obtain ⟨item, hitem⟩ := hitem
          obtain ⟨v, -, -, hrun⟩ := hitem.run P parser io
          rw [hrun]
          exact (h.read v io).1
        · obtain ⟨e, hrun⟩ := get_of_not_readable P parser (not_exists.mp hitem)
          rw [hrun]
    | set args =>
        rcases set_effect P parser h args io with ⟨-, hcont⟩ | ⟨key, v, hiff, -⟩
        · exact hcont
        · exact absurd ((hiff key v).mpr ⟨rfl, rfl⟩) (hskip key v)

/-- The last injection under a key in a run from `io`. -/
abbrev LastInjection (io : σ) (key : Key) (rs : List Request) (v : Raw F) : Prop :=
  LastWrite (fun io r => (perform P parser r io).io) (Injects P parser) io key rs v

/-- No request of a run from `io` injects under a key. -/
abbrev NeverInjected (io : σ) (key : Key) (rs : List Request) : Prop :=
  NeverWritten (fun io r => (perform P parser r io).io) (Injects P parser) io key rs

/-- A get that reaches its OK line shows what the store holds under the item's key. -/
theorem okRead_contents {contents : σ → Key → Option (Raw F)} (h : Contract contents P)
    {args : List Text} {io : σ} {name pr shown : Text}
    (hok : .okRead name pr shown ∈ (performCommandGet P args parser io).printed) :
    ∃ item key v, Readable parser args item ∧ name = item.name ∧ pr = item.pr ∧
      keyOf P item item.pr = some key ∧ contents io key = some v ∧ shown = v.display P := by
  by_cases hitem : ∃ item, Readable parser args item
  · obtain ⟨item, hitem⟩ := hitem
    obtain ⟨v, hkind, hparam, hrun⟩ := hitem.run P parser io
    rw [hrun] at hok
    have hlast := (verdict_mem_iff (Or.inl rfl) rfl).mp hok
    split at hlast
    · rename_i hsuccess
      obtain ⟨rfl, rfl, rfl⟩ := Report.okRead.inj hlast
      have hkey : keyOf P item item.pr = some (v.var.kind, v.param) := by
        rw [keyOf, hkind, hparam, Option.map_some]
      exact ⟨item, _, _, hitem, rfl, rfl, hkey, (h.read v io).2 hsuccess, rfl⟩
    · simp at hlast
  · obtain ⟨e, hrun⟩ := get_of_not_readable P parser (not_exists.mp hitem)
    simp [hrun] at hok

/-- A get on a readable item whose key holds nothing prints its FAIL line. -/
theorem failRead_of_contents {contents : σ → Key → Option (Raw F)} (h : Contract contents P)
    {args : List Text} {io : σ} {item : Item} {key : Key} (hitem : Readable parser args item)
    (hkey : keyOf P item item.pr = some key) (hnone : contents io key = none) :
    .failRead item.name item.pr ∈ (performCommandGet P args parser io).printed ∧
      ∀ name pr shown, .okRead name pr shown ∉ (performCommandGet P args parser io).printed := by
  obtain ⟨v, hkind, hparam, hrun⟩ := hitem.run P parser io
  obtain rfl : (v.var.kind, v.param) = key := by simpa [keyOf, hkind, hparam] using hkey
  have hfail : ¬ (v.read P io).success = true := fun hs => by
    simpa [hnone] using (h.read v io).2 hs
  rw [hrun, if_neg hfail]
  refine ⟨by simp, fun n p x hmem => ?_⟩
  have hlast := (verdict_mem_iff (Or.inl rfl) rfl).mp hmem
  simp at hlast

/-- Over every run of get and set commands on an empty store: a get that prints
its OK line shows the value of the last set that printed its own under the same
kind and io name; a get of a readable item without such a set prints its FAIL
line; and a set that throws or prints its FAIL line changes nothing. -/
theorem get_returns_last_set {contents : σ → Key → Option (Raw F)} (h : Contract contents P)
    {io₀ : σ} (hempty : ∀ key, contents io₀ key = none) (rs : List Request) :
    let io := ioAfter P parser rs io₀
    (∀ args name pr shown,
      .okRead name pr shown ∈ (performCommandGet P args parser io).printed →
        ∃ item key v, Readable parser args item ∧ name = item.name ∧ pr = item.pr ∧
          keyOf P item item.pr = some key ∧ LastInjection P parser io₀ key rs v ∧
          shown = v.display P) ∧
    (∀ args item key, Readable parser args item → keyOf P item item.pr = some key →
      NeverInjected P parser io₀ key rs →
        .failRead item.name item.pr ∈ (performCommandGet P args parser io).printed ∧
        ∀ name pr shown,
          .okRead name pr shown ∉ (performCommandGet P args parser io).printed) ∧
    ∀ args, ((∃ e, (performCommandSet P args parser io).outcome = .error e) ∨
      ∃ name prw value, .failWrite name prw value ∈
        (performCommandSet P args parser io).printed) →
      contents (performCommandSet P args parser io).io = contents io := by
  intro io
  have hrec := records P parser h
  refine ⟨fun args name pr shown hok => ?_, fun args item key hitem hkey hnever => ?_,
    fun args hfail => ?_⟩
  · obtain ⟨item, key, v, hitem, hname, hpr, hkey, hv, hshown⟩ := okRead_contents P parser h hok
    exact ⟨item, key, v, hitem, hname, hpr, hkey,
      (hrec.contents_eq_some_iff hempty key rs v).mp hv, hshown⟩
  · have hnone : contents io key = none :=
      (hrec.contents_of_neverWritten hnever).trans (hempty key)
    exact failRead_of_contents P parser h hitem hkey hnone
  · rcases set_effect P parser h args io with ⟨-, hcont⟩ | ⟨key, v, -, -, hok, hno⟩
    · exact hcont
    · rcases hfail with ⟨e, he⟩ | ⟨n, p, x, hmem⟩
      · simp [hok] at he
      · exact absurd hmem (hno n p x)

end Commands

section Sample

/-- A store in memory, in which an io name is the parameter it is made from and
doubles are restricted to integers. -/
def memoryPlatform : Platform (KeyMap Key (Raw Int32)) Int32 where
  zero := 0
  stod := stoi
  toString n := intToString n ++ lit ".000000"
  toIoName _ param := param
  ioReadInt name old io :=
    match io.find (.int, name) with
    | some (.int n) => ⟨io, n, .ok true⟩
    | _ => ⟨io, old, .ok false⟩
  ioReadDouble name old io :=
    match io.find (.double, name) with
    | some (.double x) => ⟨io, x, .ok true⟩
    | _ => ⟨io, old, .ok false⟩
  ioReadString name old io :=
    match io.find (.string, name) with
    | some (.string s) => ⟨io, s, .ok true⟩
    | _ => ⟨io, old, .ok false⟩
  ioWriteInt name n io := ⟨io.store (.int, name) (.int n), (), .ok true⟩
  ioWriteDouble name x io := ⟨io.store (.double, name) (.double x), (), .ok true⟩
  ioWriteString name s io := ⟨io.store (.string, name) (.string s), (), .ok true⟩

theorem find_store (io : KeyMap Key (Raw Int32)) (key : Key) (v : Raw Int32) :
    (io.store key v).find = Function.update io.find key (some v) := by
  funext k
  by_cases hk : k = key
  · subst k
    simp
  · rw [find_store_ne _ hk, Function.update_of_ne hk]

theorem memoryPlatform_contract : Contract KeyMap.find memoryPlatform where
  readInt name old io := by
    simp only [memoryPlatform]
    split <;> rename_i h <;> simp [IoAnswer.success, h]
  readDouble name old io := by
    simp only [memoryPlatform]
    split <;> rename_i h <;> simp [IoAnswer.success, h]
  readString name old io := by
    simp only [memoryPlatform]
    split <;> rename_i h <;> simp [IoAnswer.success, h]
  writeInt name v io := find_store io _ _
  writeDouble name v io := find_store io _ _
  writeString name v io := find_store io _ _

/-- Two integer items, of which the second one writes to what the first one reads. -/
def aliasParser : IoParser where
  items := indexBy Item.name
    [⟨.io, .intVal, -1, lit "a", lit "p", []⟩, ⟨.io, .intVal, -1, lit "b", lit "q", lit "p"⟩] ∅

/-- Getting the first item shows what was last set on the second. -/
theorem get_returns_last_set_alias : ∃ key v,
    LastInjection memoryPlatform aliasParser ∅ key
      [.set [lit "a", lit "5"], .set [lit "b", lit "7"], .set [lit "b", lit "x"]] v ∧
    lit "7" = v.display memoryPlatform := by
  obtain ⟨hget, -, -⟩ := get_returns_last_set memoryPlatform aliasParser memoryPlatform_contract
    (fun key => find_empty key)
    [.set [lit "a", lit "5"], .set [lit "b", lit "7"], .set [lit "b", lit "x"]]
  obtain ⟨item, key, v, -, -, -, -, hlast, hshown⟩ :=
    hget [lit "a"] (lit "a") (lit "p") (lit "7") (by decide +kernel)
  exact ⟨key, v, hlast, hshown⟩

end Sample

end IoEmulator.CtfIo
