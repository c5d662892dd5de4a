import IoEmulator.CtfIo.CompletionDrift
import IoEmulator.CtfIo.IoCalls

/-!
# The number of arguments

A set counts its arguments, while a get and an info only ask for one at least and
go on with the first. Lists of the wrong length are rejected exactly where that
makes no difference.
-/

namespace IoEmulator.CtfIo

open Conf Foundation.FirstWinsMap Foundation.Enumeration

variable {σ F : Type}

/-- The number of arguments that the error message of a command requires. -/
def requiredArguments : Which → Nat
  | .get | .info => 1
  | .set => 2

/-- The `perform_command_*` function of a command. -/
def performCommand (P : Platform σ F) (order : IterationOrder Text) (which : Which)
    (args : List Text) (parser : IoParser) (io : σ) : Performed σ :=
  match which with
  | .get => performCommandGet P args parser io
  | .set => performCommandSet P args parser io
  | .info => performCommandInfo order args parser io

variable (P : Platform σ F) (order : IterationOrder Text) (parser : IoParser)

/-- The log does not interfere with a command. -/
theorem performCommand_logged (which : Which) (args : List Text) (s : σ × List (IoCall F)) :
    (performCommand P.logged order which args parser s).forget =
      performCommand P order which args parser s.1 := by
  cases which with
  | get => exact performCommandGet_logged P parser args s
  | set => exact performCommandSet_logged P parser args s
  | info =>
      cases args with
      | nil => rfl
      | cons name rest =>
          simp only [performCommand, performCommandInfo]
          split
          · rfl
          · split <;> rfl

/-- The command throws without printing anything or calling the IO layer. -/
def Refuses (which : Which) (args : List Text) (io : σ) : Prop :=
  ∃ e, performCommand P.logged order which args parser (io, []) = ⟨(io, []), [], .error e⟩

/-- A refusal is one without the log too. -/
theorem Refuses.performCommand_eq {which : Which} {args : List Text} {io : σ}
    (h : Refuses P order parser which args io) :
    ∃ e, performCommand P order which args parser io = ⟨io, [], .error e⟩ := by
  obtain ⟨e, he⟩ := h
  refine ⟨e, ?_⟩
  rw [← performCommand_logged P order parser which args (io, []), he]
  rfl

/-- A list of another length than required is refused, and so is a name that is
neither an item's nor, for info, the keyword. -/
def RejectsIllFormed (which : Which) (args : List Text) (io : σ) : Prop :=
  (args.length ≠ requiredArguments which → Refuses P order parser which args io) ∧
  ∀ name rest, args = name :: rest → args.length = requiredArguments which →
    parser.findItem name = none → ¬ (which = .info ∧ name = lit "all") →
    Refuses P order parser which args io

/-- No argument is left over behind a first one that the command can act on. -/
def NothingLeftOver : Which → List Text → Prop
  | .get, args => args.length ≤ 1 ∨ ∀ item, ¬ Readable parser args item
  | .set, _ => True
  | .info, args => args.length ≤ 1 ∨
      ∀ name ∈ args.head?, name ≠ lit "all" ∧ parser.findItem name = none

/-- A get refuses what names no readable item, and nothing else. -/
theorem refuses_get_iff (args : List Text) (io : σ) :
    Refuses P order parser .get args io ↔ ∀ item, ¬ Readable parser args item := by
  constructor
  · rintro ⟨e, he⟩ item hitem
    obtain ⟨v, -, -, hrun⟩ := hitem.run P.logged parser (io, [])
    have hout := congrArg Performed.outcome (hrun.symm.trans he)
    cases hout
  · intro h
    obtain ⟨e, hrun⟩ := get_of_not_readable P.logged parser h
    exact ⟨e, hrun (io, [])⟩

/-- A set refuses every list that is no pair. -/
theorem refuses_set_of_length {args : List Text} (h : args.length ≠ 2) (io : σ) :
    Refuses P order parser .set args io := by
  match args with
  | [] => exact ⟨_, rfl⟩
  | [_] => exact ⟨_, rfl⟩
  | [_, _] => exact absurd rfl h
  | _ :: _ :: _ :: _ => exact ⟨_, rfl⟩

theorem refuses_set_of_unknown {name value : Text} (h : parser.findItem name = none) (io : σ) :
    Refuses P order parser .set [name, value] io :=
  ⟨invalidItem name, by simp only [performCommand, performCommandSet, h]⟩

/-- An info refuses a first name that is neither an item's nor the keyword, and
the empty list. -/
theorem refuses_info_iff (args : List Text) (io : σ) :
    Refuses P order parser .info args io ↔
      ∀ name ∈ args.head?, name ≠ lit "all" ∧ parser.findItem name = none := by
  cases args with
  | nil => exact ⟨fun _ => by simp, fun _ => ⟨_, rfl⟩⟩
  | cons name rest =>
      simp only [List.head?_cons, Option.mem_some_iff, forall_eq']
      constructor
      · rintro ⟨e, he⟩
        simp only [performCommand, performCommandInfo] at he
        by_cases hall : name = lit "all"
        · rw [if_pos hall] at he
          cases congrArg Performed.outcome he
        · rw [if_neg hall] at he
          refine ⟨hall, ?_⟩
          cases hfind : parser.findItem name with
          | none => rfl
          | some item =>
              rw [hfind] at he
              cases congrArg Performed.outcome he
      · rintro ⟨hall, hfind⟩
        exact ⟨invalidItem name,
          by simp only [performCommand, performCommandInfo, if_neg hall, hfind]⟩

/-- A command that requires one argument, refuses none and refuses unknown names
rejects a longer list only by refusing its first argument. -/
theorem rejectsIllFormed_iff_refuses {which : Which} {args : List Text} {io : σ}
    (hrequired : requiredArguments which = 1) (hnil : Refuses P order parser which [] io)
    (hunknown : ∀ name rest, parser.findItem name = none →
      ¬ (which = .info ∧ name = lit "all") → Refuses P order parser which (name :: rest) io) :
    RejectsIllFormed P order parser which args io ↔
      args.length ≤ 1 ∨ Refuses P order parser which args io := by
  rw [RejectsIllFormed, hrequired]
  constructor
  · rintro ⟨hlen, -⟩
    rcases Nat.lt_or_ge 1 args.length with hmore | hle
    · right
      apply hlen
      omega
    · exact Or.inl hle
  · intro h
    constructor
    · intro hlen
      rcases h with hle | h
      · obtain rfl : args = [] := by
          apply List.length_eq_zero_iff.mp
          omega
        exact hnil
      · exact h
    · rintro name rest rfl - hfind hall
      exact hunknown name rest hfind hall

/-- Ill-formed argument lists are rejected before any effect exactly when no
argument is left over. -/
theorem rejectsIllFormed_iff (which : Which) (args : List Text) (io : σ) :
    RejectsIllFormed P order parser which args io ↔ NothingLeftOver parser which args := by
  cases which with
  | set =>
      refine iff_of_true ⟨fun hlen => refuses_set_of_length P order parser hlen io, ?_⟩ trivial
      rintro name rest rfl hlen hfind -
      obtain ⟨value, rfl⟩ := List.length_eq_one_iff.mp (Nat.succ.inj hlen)
      exact refuses_set_of_unknown P order parser hfind io
  | get =>
      have hunknown : ∀ name rest, parser.findItem name = none →
          Refuses P order parser .get (name :: rest) io := by
        intro name rest hfind
        rw [refuses_get_iff]
        rintro item ⟨name', rest', hargs, hfind', -⟩
        obtain ⟨rfl, rfl⟩ := List.cons.inj hargs
        rw [hfind] at hfind'
        cases hfind'
      rw [rejectsIllFormed_iff_refuses P order parser rfl ⟨_, rfl⟩
        fun name rest hfind _ => hunknown name rest hfind, refuses_get_iff]
      rfl
  | info =>
      have hunknown : ∀ name rest, parser.findItem name = none →
          ¬ (Which.info = .info ∧ name = lit "all") →
          Refuses P order parser .info (name :: rest) io := by
        intro name rest hfind hall
        rw [refuses_info_iff]
        simpa [hfind] using hall
      rw [rejectsIllFormed_iff_refuses P order parser rfl ⟨_, rfl⟩ hunknown, refuses_info_iff]
      rfl

/-- A get with a second argument reads the item that the first one names. -/
theorem surplus_not_rejectsIllFormed :
    ¬ RejectsIllFormed memoryPlatform (IterationOrder.latestFirst Text) aliasParser .get
      [lit "a", lit "b"] ∅ := by
  rintro ⟨hlen, -⟩
  obtain ⟨e, he⟩ := hlen (by decide)
  have hprinted : (performCommandGet memoryPlatform.logged [lit "a", lit "b"] aliasParser
      (∅, [])).printed = [.failRead (lit "a") (lit "p")] := by decide +kernel
  have hnone := congrArg Performed.printed he
  rw [performCommand, hprinted] at hnone
  cases hnone

end IoEmulator.CtfIo
