import IoEmulator.CtfIo.IoCalls
import IoEmulator.CtfIo.StoreSemantics
import IoEmulator.Numerals

/-!
# Setting an integer item

A set on an integer item converts its value with `std::stoi`, which reads a numeral
at the beginning of the value and does not look at the rest. The number typed is
written exactly when the numeral that is read has no rest.
-/

namespace IoEmulator.CtfIo

open Conf Foundation.FirstWinsMap

variable {σ F : Type}

/-- A value other than the empty one is left to `std::stoi`. -/
theorem convert_intVal (P : Platform σ F) {s : Text} (hs : s ≠ []) :
    convert P .intVal s = (stoi s).map Raw.int := by
  simp only [convert, if_neg hs]

section Injection

variable (P : Platform σ F) (parser : IoParser)

/-- The number that the value denotes is written, or the value denotes none in
range, and the set throws and calls nothing. -/
def InjectsTyped (item : Item) (name s : Text) (io : σ) : Prop :=
  (∃ n : Int32, Denotes s n.toInt ∧
    setCalls P parser [name, s] io = [.writeInt (P.toIoName .int (prwOf item)) n]) ∨
  (¬ ∃ n, Denotes s n ∧ InIntRange n) ∧ setCalls P parser [name, s] io = [] ∧
    ∃ e, (performCommandSet P [name, s] parser io).outcome = .error e

/-- The value is not empty, and a numeral in range at its beginning that no digit
follows is the whole value. -/
def NumeralIsWhole (s : Text) : Prop :=
  s ≠ [] ∧ ∀ t r n, s = t ++ r → Denotes t n → InIntRange n → NoDigitAhead r → r = []

theorem numeralIsWhole_of_denotes {s : Text} {n : Int} (h : Denotes s n) : NumeralIsWhole s := by
  refine ⟨h.ne_nil, fun t r m hs ht _ hr => ?_⟩
  rw [hs] at h
  exact ht.eq_nil_of_append h hr

/-- Without whitespace, a value that `std::stoi` converts begins with the numeral. -/
theorem exists_numeral_of_stoi {s : Text} (hs : ∀ c ∈ s, isspace c = false) {n : Int32}
    (h : stoi s = .ok n) : ∃ t r, s = t ++ r ∧ NoDigitAhead r ∧ Denotes t n.toInt := by
  obtain ⟨w, t, r, rfl, hw, hr, ht⟩ := (stoi_eq_ok_iff s n).mp h
  cases w with
  | nil => exact ⟨t, r, rfl, hr, ht⟩
  | cons c cs =>
      have hspace := hw c List.mem_cons_self
      rw [hs c (by simp)] at hspace
      cases hspace

theorem stoi_of_denotes {t r : Text} {n : Int} (ht : Denotes t n) (hn : InIntRange n)
    (hr : NoDigitAhead r) : stoi (t ++ r) = .ok (Int32.ofInt n) := by
  rw [stoi_eq_ok_iff, toInt_ofInt hn]
  exact ⟨[], t, r, rfl, by simp, hr, ht⟩

section Set

variable {item : Item} {name s : Text} (hfind : parser.findItem name = some item)
  (hdt : item.dt = .intVal) (hprw : prwOf item ≠ [])

include hfind hdt hprw

/-- The empty value is written as zero. -/
theorem setCalls_nil (io : σ) :
    setCalls P parser [name, []] io = [.writeInt (P.toIoName .int (prwOf item)) 0] := by
  have hconv : convert P item.dt [] = .ok (.int 0) := by
    rw [hdt]
    rfl
  exact setCalls_of_convert P parser hfind hprw hconv io

/-- What `std::stoi` converts is written. -/
theorem setCalls_of_stoi (hne : s ≠ []) {n : Int32} (h : stoi s = .ok n) (io : σ) :
    setCalls P parser [name, s] io = [.writeInt (P.toIoName .int (prwOf item)) n] := by
  have hconv : convert P item.dt s = .ok (.int n) := by
    rw [hdt, convert_intVal P hne, h]
    rfl
  exact setCalls_of_convert P parser hfind hprw hconv io

/-- What `std::stoi` rejects ends the set before any call. -/
theorem set_of_stoi_error (hne : s ≠ []) {e : Exn} (h : stoi s = .error e) (io : σ) :
    setCalls P parser [name, s] io = [] ∧
      (performCommandSet P [name, s] parser io).outcome = .error e := by
  have hconv : convert P item.dt s = .error e := by
    rw [hdt, convert_intVal P hne, h]
    rfl
  refine ⟨setCalls_of_convert_error P parser hfind hprw hconv io, ?_⟩
  rw [set_of_convert_error P parser hfind hprw hconv]

end Set

/-- A set on an integer item writes the number typed or nothing exactly when the
value is a numeral as a whole as far as `std::stoi` converts one. -/
theorem injectsTyped_iff {item : Item} {name s : Text}
    (hfind : parser.findItem name = some item) (hdt : item.dt = .intVal)
    (hparam : item.pw ≠ [] ∨ item.pr ≠ []) (hs : ∀ c ∈ s, isspace c = false) (io : σ) :
    InjectsTyped P parser item name s io ↔ NumeralIsWhole s := by
  have hprw := prwOf_ne_nil hparam
  by_cases hne : s = []
  · subst hne
    have hcalls := setCalls_nil P parser hfind hdt hprw io
    constructor
    · rintro (⟨n, hden, -⟩ | ⟨-, hnone, -⟩)
      · exact absurd rfl hden.ne_nil
      · simp [hcalls] at hnone
    · intro h
      exact absurd rfl h.1
  · cases hstoi : stoi s with
    | ok n =>
        have hcalls := setCalls_of_stoi P parser hfind hdt hprw hne hstoi io
        constructor
        · rintro (⟨m, hden, -⟩ | ⟨-, hnone, -⟩)
          · exact numeralIsWhole_of_denotes hden
          · simp [hcalls] at hnone
        · rintro ⟨-, hwhole⟩
          obtain ⟨t, r, hsplit, hr, ht⟩ := exists_numeral_of_stoi hs hstoi
          have hrest := hwhole t r _ hsplit ht (inIntRange_toInt n) hr
          rw [hrest, List.append_nil] at hsplit
          exact Or.inl ⟨n, hsplit ▸ ht, hcalls⟩
    | error e =>
        have hno : ∀ t r n, s = t ++ r → Denotes t n → InIntRange n → NoDigitAhead r → False := by
          rintro t r n rfl ht hn hr
          simp [stoi_of_denotes ht hn hr] at hstoi
        obtain ⟨hcalls, hout⟩ := set_of_stoi_error P parser hfind hdt hprw hne hstoi io
        constructor
        · intro _
          exact ⟨hne, fun t r n hst ht hn hr => (hno t r n hst ht hn hr).elim⟩
        · intro _
          refine Or.inr ⟨?_, hcalls, e, hout⟩
          rintro ⟨n, hden, hn⟩
          apply hno s [] n (by simp) hden hn
          simp [NoDigitAhead]

end Injection

section Sample

/-- The first item of the alias configuration. -/
def integerItem : Item := ⟨.io, .intVal, -1, lit "a", lit "p", []⟩

theorem denotes_five : Denotes (lit "5") 5 :=
  ⟨[], lit "5", rfl, by decide, List.all_eq_true.mp rfl, Or.inl ⟨Or.inl rfl, rfl⟩⟩

theorem injectsTyped_five :
    InjectsTyped memoryPlatform aliasParser integerItem (lit "a") (lit "5") ∅ := by
  refine (injectsTyped_iff memoryPlatform aliasParser ?_ rfl (Or.inr (by decide))
    denotes_five.isspace_eq_false ∅).mpr (numeralIsWhole_of_denotes denotes_five)
  decide +kernel

/-- Setting the item to `12abc` writes 12 and reports success. -/
theorem trailing_not_injectsTyped :
    ¬ InjectsTyped memoryPlatform aliasParser integerItem (lit "a") (lit "12abc") ∅ ∧
      (performCommandSet memoryPlatform [lit "a", lit "12abc"] aliasParser ∅).printed =
        [.emptyPw, .okWrite (lit "a") (lit "p") (lit "12")] := by
  refine ⟨?_, by decide +kernel⟩
  have hcalls : setCalls memoryPlatform aliasParser [lit "a", lit "12abc"] ∅ =
      [.writeInt (lit "p") 12] := by decide +kernel
  rintro (⟨n, hden, -⟩ | ⟨-, hnone, -⟩)
  · have htwelve : Denotes (lit "12") 12 :=
      ⟨[], lit "12", rfl, by decide, List.all_eq_true.mp rfl, Or.inl ⟨Or.inl rfl, rfl⟩⟩
    have hsplit : lit "12abc" = lit "12" ++ lit "abc" := rfl
    rw [hsplit] at hden
    have hrest : NoDigitAhead (lit "abc") := by
      intro c hc
      obtain rfl := Option.some.inj hc
      rfl
    exact absurd (htwelve.eq_nil_of_append hden hrest) (by decide)
  · simp [hcalls] at hnone

end Sample

end IoEmulator.CtfIo
