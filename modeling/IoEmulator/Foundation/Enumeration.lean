import IoEmulator.Foundation.KeySets
import Mathlib.Algebra.BigOperators.Group.Finset.Basic
import Mathlib.Algebra.Order.Group.Multiset

/-!
# Enumeration through a persistent cursor

A cursor is the list of items not yet visited. Advancing it skips items until
one is wanted. A caller collects answers by asking a stateful generator with the
indices `0, 1, 2, ...` until it answers nothing.

## Implementation notes

`collect` carries fuel because a generator need not stop. `collect_eq` supplies
the fuel from the items that remain to be served.
-/

namespace Foundation.Enumeration

open Foundation.KeySets

variable {α σ ε : Type*}

/-- How a hash set is traversed: in an unspecified order, which may depend on how
the set was filled. -/
structure IterationOrder (α : Type*) where
  arrange : KeySet α → List α
  nodup : ∀ s, (arrange s).Nodup
  mem_arrange : ∀ s a, a ∈ arrange s ↔ a ∈ s

/-- The element put in last comes first. -/
def IterationOrder.latestFirst (α : Type*) : IterationOrder α where
  arrange := KeySet.toList
  nodup := KeySet.nodup
  mem_arrange _ _ := Iff.rfl

section Traversal

variable {β : Type*} (order order' : IterationOrder α)

theorem IterationOrder.coe_arrange (s : KeySet α) :
    (↑(order.arrange s) : Multiset α) = s.toFinset.val := by
  rw [Multiset.Nodup.ext (Multiset.coe_nodup.mpr (order.nodup s)) s.toFinset.nodup]
  exact order.mem_arrange s

/-- Two traversals of sets with the same elements differ in the order only. -/
theorem IterationOrder.arrange_perm {s s' : KeySet α} (h : ∀ a, a ∈ s ↔ a ∈ s') :
    (order.arrange s).Perm (order'.arrange s') := by
  rw [List.perm_ext_iff_of_nodup (order.nodup s) (order'.nodup s')]
  intro a
  rw [order.mem_arrange, order'.mem_arrange, h]

theorem coe_filterMap_eq_sum (f : α → Option β) (l : List α) :
    (↑(l.filterMap f) : Multiset β) = (l.map fun a => (↑(f a).toList : Multiset β)).sum := by
  induction l with
  | nil => rfl
  | cons a rest ih =>
      rw [List.map_cons, List.sum_cons, ← ih, List.filterMap_cons]
      cases f a <;> rfl

/-- What a traversal finds is the sum of what is found at each element. -/
theorem IterationOrder.coe_filterMap_arrange (f : α → Option β) (s : KeySet α) :
    (↑((order.arrange s).filterMap f) : Multiset β) =
      ∑ a ∈ s.toFinset, (↑(f a).toList : Multiset β) := by
  rw [coe_filterMap_eq_sum, Finset.sum, ← order.coe_arrange s, Multiset.map_coe, Multiset.sum_coe]

end Traversal

section Cursor

variable (wanted : α → Bool)

/-- Step over unwanted items, report the first wanted one and what follows it. -/
def advance : List α → Option α × List α
  | [] => (none, [])
  | a :: rest => if wanted a then (some a, rest) else advance rest

theorem advance_suffix (l : List α) : (advance wanted l).2 <:+ l := by
  induction l with
  | nil => exact List.suffix_rfl
  | cons a rest ih =>
      by_cases ha : wanted a = true
      · simp [advance, ha]
      · simpa [advance, ha] using ih.trans (List.suffix_cons a rest)

/-- The cursor runs off the end exactly when no wanted item remains. -/
theorem advance_of_filter_nil {l : List α} (h : l.filter wanted = []) :
    advance wanted l = (none, []) := by
  induction l with
  | nil => rfl
  | cons a rest ih =>
      have ha : ¬ wanted a = true := List.filter_eq_nil_iff.mp h a (by simp)
      rw [List.filter_cons_of_neg ha] at h
      simp [advance, ha, ih h]

/-- Otherwise it reports the next wanted item and keeps all later ones. -/
theorem advance_of_filter_cons {l r : List α} {a : α} (h : l.filter wanted = a :: r) :
    (advance wanted l).1 = some a ∧ (advance wanted l).2.filter wanted = r := by
  induction l with
  | nil => simp at h
  | cons b rest ih =>
      by_cases hb : wanted b = true
      · rw [List.filter_cons_of_pos hb] at h
        obtain ⟨rfl, rfl⟩ := List.cons.inj h
        simp [advance, hb]
      · rw [List.filter_cons_of_neg hb] at h
        simpa [advance, hb] using ih h

end Cursor

section Answers

variable {ι : Type*} (call : ι → σ → α × σ)

/-- The answers of a stateful object to a list of calls. -/
def answers : List ι → σ → List α
  | [], _ => []
  | i :: l, s => (call i s).1 :: answers l (call i s).2

/-- An object that answers a call alike whenever it is in a state of `I`, and that
such calls keep there, gives the same answer to all of them. -/
theorem answers_const {I : σ → Prop} {ok : ι → Prop} {a : α}
    (h : ∀ i s, ok i → I s → (call i s).1 = a ∧ I (call i s).2) {l : List ι} {s : σ}
    (hl : ∀ i ∈ l, ok i) (hs : I s) : answers call l s = l.map fun _ => a := by
  induction l generalizing s with
  | nil => rfl
  | cons i l ih =>
      obtain ⟨hi, hl⟩ := List.forall_mem_cons.mp hl
      obtain ⟨ha, hs'⟩ := h i s hi hs
      rw [answers, ha, ih hl hs', List.map_cons]

end Answers

section Collect

variable (stuck : ε) (gen : ℕ → σ → Except ε (Option α × σ))

/-- Ask with consecutive indices from `n` on, up to the first empty answer. -/
def collect : ℕ → ℕ → σ → Except ε (List α × σ)
  | 0, _, _ => .error stuck
  | fuel + 1, n, s =>
      match gen n s with
      | .error e => .error e
      | .ok (none, s') => .ok ([], s')
      | .ok (some a, s') =>
          match collect fuel (n + 1) s' with
          | .error e => .error e
          | .ok (l, s'') => .ok (a :: l, s'')

/-- `Serves gen I` says that a state in which `I n s r` holds answers index `n`
with the head of `r` and then stands ready to serve the tail. -/
structure Serves (I : ℕ → σ → List α → Prop) : Prop where
  stop : ∀ {n s}, I n s [] → ∃ s', gen n s = .ok (none, s')
  next : ∀ {n s a r}, I n s (a :: r) → ∃ s', gen n s = .ok (some a, s') ∧ I (n + 1) s' r

variable {gen}

/-- With more fuel than items the collected answers are exactly those items. -/
theorem collect_eq {I : ℕ → σ → List α → Prop} (serves : Serves gen I) {fuel n : ℕ} {s : σ}
    {r : List α} (h : I n s r) (hf : r.length < fuel) :
    ∃ s', collect stuck gen fuel n s = .ok (r, s') := by
  induction r generalizing fuel n s with
  | nil =>
      obtain ⟨k, rfl⟩ := Nat.exists_eq_succ_of_ne_zero (Nat.ne_of_gt hf)
      obtain ⟨s', hs⟩ := serves.stop h
      exact ⟨s', by simp [collect, hs]⟩
  | cons a r ih =>
      obtain ⟨k, rfl⟩ := Nat.exists_eq_succ_of_ne_zero (Nat.ne_zero_of_lt hf)
      obtain ⟨s', hs, h'⟩ := serves.next h
      obtain ⟨s'', hc⟩ := ih h' (by simpa using hf)
      exact ⟨s'', by simp [collect, hs, hc]⟩

/-- A finished collection has made one call more than it has answers, with
consecutive indices, and nothing else. -/
theorem collect_calls {fuel n : ℕ} {s s' : σ} {l : List α}
    (h : collect stuck gen fuel n s = .ok (l, s')) :
    (List.range' n (l.length + 1)).foldlM (fun s k => (gen k s).map Prod.snd) s = .ok s' := by
  induction fuel generalizing n s l with
  | zero => simp [collect] at h
  | succ fuel ih =>
      rw [collect] at h
      split at h
      · simp at h
      · rename_i s₁ hgen
        obtain ⟨rfl, rfl⟩ := Prod.mk.inj (Except.ok.inj h)
        simp [List.range'_succ, hgen, Except.map]
      · rename_i a s₁ hgen
        split at h
        · simp at h
        · rename_i r s₂ hrest
          obtain ⟨rfl, rfl⟩ := Prod.mk.inj (Except.ok.inj h)
          rw [List.length_cons, List.range'_succ, List.foldlM_cons, hgen]
          exact ih hrest

end Collect

end Foundation.Enumeration
