import IoEmulator.CtfIo.ExactDoubles
import IoEmulator.CtfIo.IoCalls
import IoEmulator.Foundation.Words

/-!
# Setting an item to the text that a get shows

The text of a value is one word and converts back to the value, except for
doubles with more than six digits behind the point, which are shown rounded.
-/

namespace IoEmulator.CtfIo

open Conf Foundation.FirstWinsMap Foundation.FixedPoint Foundation.Words

variable {σ F : Type}

section ShowsBack

variable (P : Platform σ F)

/-- A read of the item, as a get makes it, succeeds with the value. -/
def Delivers (item : Item) (io : σ) (raw : Raw F) : Prop :=
  ∃ val, Variant.make P item.dt item.pr [] = .ok val ∧ (val.read P io).success = true ∧
    (val.read P io).out.var = raw

/-- The text shown for a value is one word, converts to the value, and turns a get
into a set that writes what was read. -/
structure ShowsBack (raw : Raw F) : Prop where
  token : words isspace (raw.display P) = [raw.display P]
  converts : ∀ type, kindOf type = some raw.kind → ∀ v : Variant F,
    v.setValueFromStr P type (raw.display P) = .ok { v with var := raw }
  writesBack : ∀ parser name item io io', IoParser.findItem parser name = some item →
    item.pr ≠ [] → Delivers P item io raw →
      .okRead item.name item.pr (raw.display P) ∈ (performCommandGet P [name] parser io).printed ∧
      setCalls P parser [name, raw.display P] io' =
        [Variant.writeCall ⟨raw, P.toIoName raw.kind (prwOf item)⟩]

variable {P}

/-- What is delivered has the kind of the item's type. -/
theorem Delivers.kindOf_eq {item : Item} {io : σ} {raw : Raw F} (hpr : item.pr ≠ [])
    (h : Delivers P item io raw) : kindOf item.dt = some raw.kind := by
  obtain ⟨val, hmake, -, rfl⟩ := h
  rw [(val.read_same P io).1]
  rw [make_eq P hpr] at hmake
  obtain ⟨raw, hconv, rfl⟩ := map_eq_ok_iff.mp hmake
  exact kindOf_of_convert P hconv

/-- A get of an item that delivers a value shows it. -/
theorem Delivers.okRead_mem {parser : IoParser} {name : Text} {item : Item} {io : σ} {raw : Raw F}
    (hfind : parser.findItem name = some item) (hpr : item.pr ≠ []) (h : Delivers P item io raw) :
    .okRead item.name item.pr (raw.display P) ∈
      (performCommandGet P [name] parser io).printed := by
  obtain ⟨val, hmake, hok, rfl⟩ := h
  simp only [performCommandGet, hfind, if_neg hpr, hmake, if_pos hok]
  simp

/-- Everything rests on the conversion of the text that is shown. -/
theorem showsBack_iff_convert (raw : Raw F) : ShowsBack P raw ↔
    words isspace (raw.display P) = [raw.display P] ∧
      ∀ type, kindOf type = some raw.kind → convert P type (raw.display P) = .ok raw := by
  constructor
  · intro h
    refine ⟨h.token, fun type htype => ?_⟩
    have hset := h.converts type htype ⟨raw, []⟩
    obtain ⟨raw', hconv, hvariant⟩ := map_eq_ok_iff.mp hset
    rw [hconv, (Variant.mk.inj hvariant).1]
  · rintro ⟨htoken, hconv⟩
    refine ⟨htoken, fun type htype v => ?_, fun parser name item io io' hfind hpr hread => ?_⟩
    · rw [Variant.setValueFromStr, hconv type htype]
      rfl
    · have hprw := prwOf_ne_nil (Or.inr hpr)
      exact ⟨hread.okRead_mem hfind hpr,
        setCalls_of_convert P parser hfind hprw (hconv _ (hread.kindOf_eq hpr)) io'⟩

end ShowsBack

section Exact

variable (rnd : Nearest ℚ) (P : Platform σ ℚ)

/-- A double survives exactly when it has at most six digits behind the point. -/
theorem stod_fixedToString_eq_iff (x : ℚ) :
    stod (fixedToString rnd x) = .ok x ↔ ∃ n : ℤ, x * 10 ^ 6 = n := by
  have hscale : (10 ^ 6 : ℚ) ≠ 0 := by norm_num
  rw [stod_fixedToString, Except.ok.injEq]
  by_cases hx : x < 0
  · rw [if_pos hx, abs_of_neg hx, neg_eq_iff_eq_neg, rnd.fixed_eq_self_iff hscale]
    constructor
    · rintro ⟨n, hn⟩
      exact ⟨-n, by push_cast; linarith⟩
    · rintro ⟨n, hn⟩
      exact ⟨-n, by push_cast; linarith⟩
  · rw [if_neg hx, abs_of_nonneg (not_lt.mp hx), rnd.fixed_eq_self_iff hscale]

/-- What is shown of a double is one word. -/
theorem words_fixedToString (x : ℚ) :
    words isspace (fixedToString rnd x) = [fixedToString rnd x] := by
  rw [words_eq_self_iff]
  refine ⟨by simp [fixedToString], fun c hc => ?_⟩
  simp only [fixedToString, List.mem_append, List.mem_cons] at hc
  rcases hc with hc | hc | rfl | hc
  · split at hc
    · obtain rfl := List.mem_singleton.mp hc
      rfl
    · simp at hc
  · exact (isdigit_excludes ((natToString_spec _).2.1 c hc)).1
  · rfl
  · exact (isdigit_excludes (isdigit_of_mem_map hc)).1

theorem convert_doubleVal {s : Text} (hs : s ≠ []) :
    convert (exactDoubles rnd P) .doubleVal s = (stod s).map Raw.double := by
  simp only [convert, if_neg hs]
  rfl

/-- For a double everything rests on `std::stod`. -/
theorem convert_fixedToString_iff (x : ℚ) :
    (∀ type, kindOf type = some .double →
      convert (exactDoubles rnd P) type (fixedToString rnd x) = .ok (.double x)) ↔
        stod (fixedToString rnd x) = .ok x := by
  have hconvert := convert_doubleVal rnd P
    ((words_eq_self_iff isspace _).mp (words_fixedToString rnd x)).1
  constructor
  · intro hconv
    have h := hconvert.symm.trans (hconv .doubleVal rfl)
    obtain ⟨y, hstod, hdouble⟩ := map_eq_ok_iff.mp h
    rw [hstod, Raw.double.inj hdouble]
  · intro hstod type htype
    cases type <;> simp [kindOf] at htype
    rw [hconvert, hstod]
    rfl

/-- The values whose text gives them back. -/
def SurvivesShow : Raw ℚ → Prop
  | .int _ => True
  | .double x => ∃ n : ℤ, x * 10 ^ 6 = n
  | .string s => s ≠ [] ∧ ∀ c ∈ s, isspace c = false

/-- Injecting what is shown gives the value back for every `int`, for the doubles
with at most six digits behind the point, and for the strings that are one word. -/
theorem showsBack_iff (raw : Raw ℚ) : ShowsBack (exactDoubles rnd P) raw ↔ SurvivesShow raw := by
  rw [showsBack_iff_convert]
  cases raw with
  | int n =>
      have hden := denotes_intToString n
      refine iff_of_true ⟨?_, fun type htype => ?_⟩ trivial
      · exact (words_eq_self_iff isspace _).mpr ⟨hden.ne_nil, hden.isspace_eq_false⟩
      · cases type <;> simp [kindOf, Raw.kind] at htype
        simp only [convert, Raw.display, if_neg hden.ne_nil, stoi_intToString]
        rfl
  | double x =>
      rw [SurvivesShow, ← stod_fixedToString_eq_iff rnd, ← convert_fixedToString_iff rnd P]
      exact and_iff_right (words_fixedToString rnd x)
  | string s =>
      rw [SurvivesShow, ← words_eq_self_iff]
      refine and_iff_left_of_imp fun _ type htype => ?_
      cases type <;> simp [kindOf, Raw.kind] at htype
      rfl

end Exact

section Sample

/-- A layer that answers every read of a double with `x` and accepts every write. -/
def constantPlatform (x : ℚ) : Platform Unit ℚ where
  zero := 0
  stod := stod
  toString := fixedToString .halfEven
  toIoName _ param := param
  ioReadInt _ old io := ⟨io, old, .ok true⟩
  ioReadDouble _ _ io := ⟨io, x, .ok true⟩
  ioReadString _ old io := ⟨io, old, .ok true⟩
  ioWriteInt _ _ io := ⟨io, (), .ok true⟩
  ioWriteDouble _ _ io := ⟨io, (), .ok true⟩
  ioWriteString _ _ io := ⟨io, (), .ok true⟩

/-- The double 1/128 has seven digits behind the point. Six of them are shown, and
setting the item to what is shown writes another number. -/
theorem fine_not_showsBack :
    ¬ ShowsBack (exactDoubles .halfEven (constantPlatform (1 / 128))) (.double (1 / 128)) := by
  intro h
  have hset := h.converts .doubleVal rfl ⟨.int 0, []⟩
  have hshown : fixedToString .halfEven (1 / 128) = lit "0.007812" := by decide +kernel
  have hread : stod (lit "0.007812") = .ok (1953 / 250000) := by decide +kernel
  have hconv : convert (exactDoubles .halfEven (constantPlatform (1 / 128))) .doubleVal
      (lit "0.007812") = .ok (.double (1953 / 250000)) := by
    rw [convert_doubleVal .halfEven _ (by decide), hread]
    rfl
  change Variant.setValueFromStr _ _ (fixedToString .halfEven (1 / 128)) _ = _ at hset
  rw [hshown, Variant.setValueFromStr, hconv] at hset
  have hvalue := Raw.double.inj (Variant.mk.inj (Except.ok.inj hset)).1
  norm_num at hvalue

end Sample

end IoEmulator.CtfIo
