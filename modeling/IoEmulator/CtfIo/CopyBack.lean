import IoEmulator.CtfIo.Ledger
import IoEmulator.CtfIo.ShowAndInject

/-!
# Setting an item to what it shows, again and again

A user copies the text that a get shows into a set of the same item. On a reliable
layer the first copy may round a double, by half a millionth at most, and no
further copy changes anything, whether or not the item is written where it is read.
-/

namespace IoEmulator.CtfIo

open Conf Foundation.FirstWinsMap Foundation.FixedPoint Foundation.Words

variable {σ : Type}

/-- What remains of a value when its text is converted. -/
def Raw.rounded (rnd : Nearest ℚ) : Raw ℚ → Raw ℚ
  | .double x => .double (if x < 0 then -rnd.fixed (10 ^ 6) |x| else rnd.fixed (10 ^ 6) |x|)
  | raw => raw

section Rounded

variable (rnd : Nearest ℚ)

theorem kind_rounded (raw : Raw ℚ) : (raw.rounded rnd).kind = raw.kind := by
  cases raw <;> rfl

/-- The text of a value converts to the rounded value. -/
theorem convert_display (P : Platform σ ℚ) {type : DataType} {raw : Raw ℚ}
    (htype : kindOf type = some raw.kind) :
    convert (exactDoubles rnd P) type (raw.display (exactDoubles rnd P)) =
      .ok (raw.rounded rnd) := by
  cases raw with
  | int n =>
      obtain rfl : type = .intVal := by cases type <;> simp_all [kindOf, Raw.kind]
      simp only [convert, Raw.display, if_neg (denotes_intToString n).ne_nil, stoi_intToString]
      rfl
  | double x =>
      obtain rfl : type = .doubleVal := by cases type <;> simp_all [kindOf, Raw.kind]
      have hne : fixedToString rnd x ≠ [] :=
        ((words_eq_self_iff isspace _).mp (words_fixedToString rnd x)).1
      change convert (exactDoubles rnd P) .doubleVal (fixedToString rnd x) = _
      rw [convert_doubleVal rnd P hne, stod_fixedToString]
      rfl
  | string s =>
      obtain rfl : type = .stringVal := by cases type <;> simp_all [kindOf, Raw.kind]
      rfl

/-- A rounded value has at most six digits behind the point. -/
theorem rounded_rounded (raw : Raw ℚ) : (raw.rounded rnd).rounded rnd = raw.rounded rnd := by
  cases raw with
  | int n => rfl
  | string s => rfl
  | double x =>
      have hscale : (10 ^ 6 : ℚ) ≠ 0 := by norm_num
      have hsteps : ∃ n : ℤ,
          (if x < 0 then -rnd.fixed (10 ^ 6) |x| else rnd.fixed (10 ^ 6) |x|) * 10 ^ 6 = n := by
        by_cases hx : x < 0
        · refine ⟨-rnd.round (|x| * 10 ^ 6), ?_⟩
          rw [if_pos hx, neg_mul, rnd.fixed_mul hscale]
          push_cast
          rfl
        · refine ⟨rnd.round (|x| * 10 ^ 6), ?_⟩
          rw [if_neg hx, rnd.fixed_mul hscale]
      have hsurvives := (stod_fixedToString_eq_iff rnd _).mpr hsteps
      rw [stod_fixedToString] at hsurvives
      exact congrArg Raw.double (Except.ok.inj hsurvives)

/-- Rounding moves a double by half a millionth at most, and nothing else. -/
theorem rounded_near (raw : Raw ℚ) : raw.rounded rnd = raw ∨
    ∃ x y, raw = .double x ∧ raw.rounded rnd = .double y ∧ |y - x| ≤ 1 / 2 / 10 ^ 6 := by
  cases raw with
  | int n => exact Or.inl rfl
  | string s => exact Or.inl rfl
  | double x =>
      refine Or.inr ⟨x, _, rfl, rfl, ?_⟩
      have hnear := rnd.fixed_near (by norm_num : (0 : ℚ) < 10 ^ 6) |x|
      by_cases hx : x < 0
      · rw [if_pos hx]
        rw [abs_of_neg hx] at hnear ⊢
        rw [abs_sub_comm] at hnear
        have hmirror : -rnd.fixed (10 ^ 6) (-x) - x = -x - rnd.fixed (10 ^ 6) (-x) := by ring
        rw [hmirror]
        exact hnear
      · rw [if_neg hx]
        rw [abs_of_nonneg (not_lt.mp hx)] at hnear ⊢
        exact hnear

end Rounded

/-- The text that an OK line of a get shows. -/
def Report.shown? : Report → Option Text
  | .okRead _ _ text => some text
  | _ => none

/-- Get an item and set it to the text that is shown, if any. -/
def copyBack (P : Platform σ ℚ) (parser : IoParser) (name : Text) (io : σ) : σ :=
  let r := performCommandGet P [name] parser io
  match r.printed.findSome? Report.shown? with
  | some text => (performCommandSet P [name, text] parser r.io).io
  | none => r.io

section Copies

variable (rnd : Nearest ℚ) (P : Platform σ ℚ) (parser : IoParser) {contents : σ → Values ℚ}
  {name : Text} {item : Item} {source target : Key}

/-- A copy from a key that holds nothing changes nothing. -/
theorem Reliable.copyBack_none (h : Reliable contents (exactDoubles rnd P))
    (hfind : parser.findItem name = some item) (hpr : item.pr ≠ [])
    (hread : keyOf (exactDoubles rnd P) item item.pr = some source) {io : σ}
    (hnone : contents io source = none) :
    contents (copyBack (exactDoubles rnd P) parser name io) = contents io := by
  obtain ⟨kind, hkind, -⟩ := Option.map_eq_some_iff.mp hread
  have hitem : Readable parser [name] item := ⟨name, [], rfl, hfind, hpr, kind, hkind⟩
  have hprinted := (h.get parser hitem hread io).1
  simp only [hnone] at hprinted
  simp only [CtfIo.copyBack, hprinted, List.findSome?_cons, Report.shown?, List.findSome?_nil]
  exact h.get_contents parser [name] io

/-- One copy writes the rounded value of the key that is read to the key that is
written, and changes nothing else. -/
theorem Reliable.copyBack (h : Reliable contents (exactDoubles rnd P))
    (hfind : parser.findItem name = some item) (hpr : item.pr ≠ [])
    (hread : keyOf (exactDoubles rnd P) item item.pr = some source)
    (hwrite : keyOf (exactDoubles rnd P) item (prwOf item) = some target) {io : σ} {raw : Raw ℚ}
    (hraw : contents io source = some raw) :
    contents (copyBack (exactDoubles rnd P) parser name io) =
      Function.update (contents io) target (some (raw.rounded rnd)) := by
  obtain ⟨kind, hkind, hsource⟩ := Option.map_eq_some_iff.mp hread
  have hrawKind : raw.kind = kind := by
    rw [h.kinds io source raw hraw, ← hsource]
  have htarget : (kind, P.toIoName kind (prwOf item)) = target := by
    rw [keyOf, hkind] at hwrite
    exact Option.some.inj hwrite
  have hitem : Readable parser [name] item := ⟨name, [], rfl, hfind, hpr, kind, hkind⟩
  have hprinted := (h.get parser hitem hread io).1
  simp only [hraw] at hprinted
  have hconv := convert_display rnd P (hkind.trans (congrArg some hrawKind.symm))
  have hset := (h.set parser hfind (prwOf_ne_nil (Or.inr hpr)) hconv
    (performCommandGet (exactDoubles rnd P) [name] parser io).io).1
  rw [h.get_contents parser, kind_rounded, hrawKind] at hset
  simp only [CtfIo.copyBack, hprinted, List.findSome?_cons, Report.shown?]
  exact hset.trans (by rw [← htarget]; rfl)

/-- However often the text that a get shows is copied back, the key that is written
holds the value of the key that is read, rounded once, half a millionth away at most,
and no other key changes. As long as the key that is read holds nothing, none does. -/
theorem copyBack_iterate (h : Reliable contents (exactDoubles rnd P))
    (hfind : parser.findItem name = some item) (hpr : item.pr ≠ [])
    (hread : keyOf (exactDoubles rnd P) item item.pr = some source)
    (hwrite : keyOf (exactDoubles rnd P) item (prwOf item) = some target) (io : σ) :
    (contents io source = none → ∀ k,
      contents ((copyBack (exactDoubles rnd P) parser name)^[k] io) = contents io) ∧
    ∀ raw, contents io source = some raw → ∃ shown : Raw ℚ,
      (shown = raw ∨ ∃ x y, raw = .double x ∧ shown = .double y ∧ |y - x| ≤ 1 / 2 / 10 ^ 6) ∧
      ∀ k, contents ((copyBack (exactDoubles rnd P) parser name)^[k + 1] io) =
        Function.update (contents io) target (some shown) := by
  constructor
  · intro hnone k
    induction k with
    | zero => rfl
    | succ k ih =>
        rw [Function.iterate_succ_apply',
          h.copyBack_none rnd P parser hfind hpr hread (by rw [ih, hnone]), ih]
  · intro raw hraw
    refine ⟨raw.rounded rnd, rounded_near rnd raw, fun k => ?_⟩
    induction k with
    | zero => exact h.copyBack rnd P parser hfind hpr hread hwrite hraw
    | succ k ih =>
        -- the key that is read holds the value as it was or, if it is the one written, rounded
        obtain ⟨held, hheld, hround⟩ : ∃ held,
            contents ((copyBack (exactDoubles rnd P) parser name)^[k + 1] io) source = some held ∧
              held.rounded rnd = raw.rounded rnd := by
          rw [ih]
          by_cases hsame : source = target
          · rw [hsame, Function.update_self]
            exact ⟨_, rfl, rounded_rounded rnd raw⟩
          · rw [Function.update_of_ne hsame]
            exact ⟨raw, hraw, rfl⟩
        rw [Function.iterate_succ_apply', h.copyBack rnd P parser hfind hpr hread hwrite hheld, ih,
          hround, Function.update_idem]

end Copies

section Sample

/-- One item that is a double, read as `p` and written as `w`. -/
def doubleParser : IoParser where
  items := indexBy Item.name [⟨.io, .doubleVal, -1, lit "a", lit "p", lit "w"⟩] ∅

/-- A ledger that holds 1/128 under the name that is read. -/
def fineLedger : Ledger ℚ where
  values key := if key = (.double, lit "p") then some (.double (1 / 128)) else none
  kinds key v hv := by
    split at hv
    · rename_i hkey
      rw [hkey, ← Option.some.inj hv]
      rfl
    · cases hv

/-- Any number of copies leaves the value that is read alone, and the one that is
written off by half a millionth at most. -/
theorem copyBack_iterate_fine : ∃ shown : Raw ℚ,
    (shown = .double (1 / 128) ∨ ∃ x y, Raw.double (1 / 128) = .double x ∧ shown = .double y ∧
      |y - x| ≤ 1 / 2 / 10 ^ 6) ∧
    ∀ k, ((copyBack (exactDoubles .halfEven (ledger (constantPlatform 0))) doubleParser
      (lit "a"))^[k + 1] fineLedger).values =
        Function.update fineLedger.values (.double, lit "w") (some shown) :=
  (copyBack_iterate .halfEven (ledger (constantPlatform 0)) doubleParser
    (Ledger.reliable (exactDoubles .halfEven (constantPlatform 0)))
    (show _ = some (⟨.io, .doubleVal, -1, lit "a", lit "p", lit "w"⟩ : Item) from rfl) (by decide)
    rfl rfl fineLedger).2 (.double (1 / 128)) rfl

end Sample

end IoEmulator.CtfIo
