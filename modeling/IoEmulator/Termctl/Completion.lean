import IoEmulator.Text
import IoEmulator.Foundation.Enumeration

/-!
# The completion object

A completion holds a set of names and an iterator that survives between calls.
`generator` rewinds it on state zero and then steps to the next match.

## Implementation notes

The iteration order of `std::unordered_set` is unspecified, so it is a
parameter. It may depend on how the set was filled. The iterator is the list of
names from its position to `cend()`.
-/

namespace IoEmulator.Termctl

open Foundation.Enumeration Foundation.KeySets

/-- A set of names in its iteration order, with a valid iterator into it. -/
structure Completion where
  items : List Text
  nodup : items.Nodup
  iter : List Text
  iter_suffix : iter <:+ items

/-- `completion::make_unique`: the iterator starts at `cend()`. -/
def Completion.makeUnique (order : IterationOrder Text) (items : KeySet Text) : Completion where
  items := order.arrange items
  nodup := order.nodup items
  iter := []
  iter_suffix := List.nil_suffix

@[simp] theorem Completion.mem_makeUnique (order : IterationOrder Text) (items : KeySet Text)
    (c : Text) : c ∈ (Completion.makeUnique order items).items ↔ c ∈ items :=
  order.mem_arrange items c

/-- `item.compare(0, len, text) == 0` for `len` the length of `text`. -/
def matchesPrefix (text item : Text) : Bool := item.take text.length = text

@[simp] theorem matchesPrefix_iff (text item : Text) :
    matchesPrefix text item = true ↔ text <+: item := by
  rw [matchesPrefix, decide_eq_true_iff, List.prefix_iff_eq_take, eq_comm]

/-- The position a call with this state starts from. -/
def Completion.start (state : Int) (c : Completion) : List Text :=
  if state = 0 then c.items else c.iter

theorem Completion.start_suffix (state : Int) (c : Completion) : c.start state <:+ c.items := by
  unfold Completion.start
  split
  · exact List.suffix_rfl
  · exact c.iter_suffix

/-- `completion::generator`. An empty text rewinds but never answers. -/
def Completion.generator (text : Text) (state : Int) (c : Completion) :
    Option Text × Completion :=
  if text = [] then (none, { c with iter := c.start state, iter_suffix := c.start_suffix state })
  else
    let r := advance (matchesPrefix text) (c.start state)
    (r.1, { c with
      iter := r.2
      iter_suffix := (advance_suffix (matchesPrefix text) (c.start state)).trans
        (c.start_suffix state) })

@[simp] theorem Completion.generator_items (text : Text) (state : Int) (c : Completion) :
    (c.generator text state).2.items = c.items := by
  unfold Completion.generator
  split <;> rfl

/-- The names a session for `text` offers: the matching ones, in iteration order. -/
def Completion.offers (text : Text) (c : Completion) : List Text :=
  if text = [] then [] else c.items.filter (matchesPrefix text)

theorem Completion.mem_offers (text : Text) (c : Completion) (n : Text) :
    n ∈ c.offers text ↔ text ≠ [] ∧ n ∈ c.items ∧ text <+: n := by
  unfold Completion.offers
  by_cases ht : text = [] <;> simp [ht]

theorem Completion.nodup_offers (text : Text) (c : Completion) : (c.offers text).Nodup := by
  unfold Completion.offers
  split
  · exact List.nodup_nil
  · exact c.nodup.filter _

/-- `Awaiting text n c r`: a session for `text` that is about to make its call
number `n` on `c` still has `r` to deliver. -/
def Completion.Awaiting (text : Text) (n : ℕ) (c : Completion) (r : List Text) : Prop :=
  r = if text = [] then [] else (c.start n).filter (matchesPrefix text)

/-- A session begins by rewinding, so it has everything to deliver whatever
happened to the iterator before. -/
theorem Completion.awaiting_zero (text : Text) (c : Completion) :
    c.Awaiting text 0 (c.offers text) := rfl

theorem Completion.awaiting_nil {text : Text} {n : ℕ} {c : Completion}
    (h : c.Awaiting text n []) : (c.generator text n).1 = none := by
  unfold Completion.generator
  by_cases ht : text = []
  · simp [ht]
  · simp only [Completion.Awaiting, if_neg ht] at h
    simp only [if_neg ht, advance_of_filter_nil _ h.symm]

theorem Completion.awaiting_cons {text : Text} {n : ℕ} {c : Completion} {a : Text}
    {r : List Text} (h : c.Awaiting text n (a :: r)) :
    (c.generator text n).1 = some a ∧ (c.generator text n).2.Awaiting text (n + 1) r := by
  by_cases ht : text = []
  · simp [Completion.Awaiting, ht] at h
  · simp only [Completion.Awaiting, if_neg ht] at h
    obtain ⟨hout, hrest⟩ := advance_of_filter_cons _ h.symm
    have hn : ((n + 1 : ℕ) : Int) ≠ 0 := by omega
    refine ⟨by simp only [Completion.generator, if_neg ht, hout], ?_⟩
    simp only [Completion.Awaiting, Completion.generator, if_neg ht, Completion.start,
      if_neg hn]
    exact hrest.symm

end IoEmulator.Termctl
